import Mathlib.Data.List.Forall2
import CodeAtlas.Proofs.DecoratedRoutes

/-!
# Imported modules

A statement may list several modules. One that gives a module a new name is of another kind in
Python, and PHP has a clause for each name. The readers take the modules that keep their name, and
the first clause. All imports of a file come from such statements at its top (`importedBy`), so it
can be told when every listed module has its edge (`imports_complete_iff`).
-/

namespace CodeAtlas.Extract

open List
open Source (Tree)

structure Site.Imports (s : Site) (target : String) (e : Edge) : Prop where
  source : e.source = s.fileId
  relation : e.relation = .imports
  target : e.target = target

theorem Site.imports_importEdge (s : Site) (target context : String) :
    s.Imports target (s.importEdge target context) :=
  ⟨rfl, rfl, rfl⟩

theorem forall₂_map_filter_iff {α β : Type} {R : α → β → Prop} {p : α → Bool} {f : α → β}
    (hR : ∀ a, R a (f a)) (l : List α) : List.Forall₂ R l ((l.filter p).map f) ↔ ∀ a ∈ l, p a := by
  constructor
  · intro h
    have hlength := h.length_eq
    rw [length_map] at hlength
    exact length_filter_eq_length_iff.1 hlength.symm
  · intro h
    rw [filter_eq_self.2 h, forall₂_map_right_iff, forall₂_same]
    exact fun a _ => hR a

variable {em : Emission}

theorem exists_of_withComments {s : Site} {kinds : List String} {r : Reads Emission}
    (h : r >>= withComments s kinds = .ok em) : ∃ e, r = .ok e ∧ e.edges = em.edges := by
  obtain ⟨e, he, hcomments⟩ := bind_eq_ok_iff.1 h
  obtain ⟨found, -, rfl⟩ := ensures_withComments s kinds e em hcomments
  exact ⟨e, he, (append_nil _).symm⟩

def Importless (e : Emission) : Prop :=
  ∀ d ∈ e.edges, d.relation ≠ .imports

namespace Importless

variable {s : Site} {a b : Emission}

theorem ofEdges {nodes : List Node} {edges : List Edge} (h : ∀ d ∈ edges, d.relation = .defines) :
    Importless ⟨nodes, edges⟩ := by
  intro d hd himports
  rw [h d hd] at himports
  cases himports

theorem nil : Importless {} :=
  fun _ h => absurd h not_mem_nil

theorem append (ha : Importless a) (hb : Importless b) : Importless (a ++ b) :=
  fun d hd => (mem_append.1 hd).elim (ha d) (hb d)

theorem ofCalls (h : OnlyCalls a) : Importless a := by
  intro d hd himports
  rw [h.calls d hd] at himports
  cases himports

theorem ofRoute (owner : String) (t : Tree) (route : Option String) :
    Importless (routeEmission s owner t route) := by
  intro d hd
  obtain ⟨r, -, rfl⟩ := mem_edges_routeEmission_iff.1 hd
  exact fun h => by cases h

theorem gather {α : Type} {emit : α → Reads Emission} {items : List α}
    (h : ∀ a ∈ items, Ensures (emit a) Importless) :
    Ensures (Emission.gather emit items) Importless := by
  intro em hem d hd
  obtain ⟨a, ha, part, hpart, hd⟩ := exists_part_of_gather hem hd
  exact h a ha part hpart d hd

end Importless

variable {s : Site}

namespace Python

/-- Whether a listed module keeps its name. -/
inductive ImportForm where
  | plain
  | renamed
deriving DecidableEq

structure ListedModule where
  form : ImportForm
  name : String

/-- The children of an import statement list modules. Words and commas between them list nothing. -/
inductive ImportList (s : Site) : List Tree → List ListedModule → Prop
  | nil : ImportList s [] []
  | plain {c : Tree} {name : String} {rest : List Tree} {modules : List ListedModule}
      (hkind : c.kind = "dotted_name")
      (hname : s.parsed.text c = .ok name) (hrest : ImportList s rest modules) :
      ImportList s (c :: rest) (⟨.plain, name⟩ :: modules)
  | renamed {c d : Tree} {name : String} {rest : List Tree} {modules : List ListedModule}
      (hkind : c.kind = "aliased_import") (hd : c.child? "dotted_name" = some d)
        (hname : s.parsed.text d = .ok name)
      (hrest : ImportList s rest modules) : ImportList s (c :: rest) (⟨.renamed, name⟩ :: modules)
  | other {c : Tree} {rest : List Tree} {modules : List ListedModule}
      (hplain : c.kind ≠ "dotted_name")
      (hrenamed : c.kind ≠ "aliased_import") (hrest : ImportList s rest modules) :
    ImportList s (c :: rest) modules

/-- Whether a listed module is taken: it keeps its name, and the name is not missing. -/
def ListedModule.isTaken (m : ListedModule) : Bool :=
  m.form == .plain && !m.name.isEmpty

def moduleEdge (s : Site) (name : String) : Edge :=
  s.importEdge (Node.makeId name "__file__") ("import " ++ name)

def importAt (s : Site) (c : Tree) : Reads Emission := do
  if c.kind == "dotted_name" then
    let name ← s.parsed.text c
    if name.isEmpty then return {} else return .ofEdge (moduleEdge s name)
  else return {}

theorem importAt_plain {c : Tree} {name : String} (hkind : c.kind = "dotted_name")
    (hname : s.parsed.text c = .ok name) :
    importAt s c =
      .ok
        { edges := ([⟨.plain, name⟩].filter ListedModule.isTaken).map fun m =>
            moduleEdge s m.name } := by
  unfold importAt
  rw [if_pos (beq_iff_eq.2 hkind)]
  refine bind_eq_ok_iff.2 ⟨name, hname, ?_⟩
  by_cases hempty : name.isEmpty
  · rw [if_pos hempty, filter_cons_of_neg (by simp [ListedModule.isTaken, hempty])]
    rfl
  · rw [if_neg hempty, filter_cons_of_pos (by simpa [ListedModule.isTaken] using hempty)]
    rfl

theorem importAt_other {c : Tree} (hkind : c.kind ≠ "dotted_name") : importAt s c = .ok {} :=
  if_neg (by simpa using hkind)

variable {modules : List ListedModule}

theorem gather_importAt {cs : List Tree} (hlist : ImportList s cs modules) :
    Emission.gather (importAt s) cs =
      .ok { edges := (modules.filter ListedModule.isTaken).map fun m => moduleEdge s m.name } := by
  induction hlist with
  | nil => rfl
  | @plain c name rest modules hkind hname hrest ih =>
    rw [Emission.gather, ih, importAt_plain hkind hname, ← singleton_append (l := modules),
      filter_append, map_append]
    rfl
  | @renamed c d name rest modules hkind hd hname hrest ih =>
    rw [Emission.gather, ih, importAt_other (by rw [hkind]; decide)]
    rfl
  | other hplain hrenamed hrest ih =>
    rw [Emission.gather, ih, importAt_other hplain]
    rfl

theorem statement_of_importList {t : Tree} (hkind : t.kind = "import_statement")
    (hlist : ImportList s t.children modules) :
    statement s t =
      .ok
        { edges := (modules.filter ListedModule.isTaken).map fun m => moduleEdge s m.name } := by
  have hstatement : statement s t = Emission.gather (importAt s) t.children := by
    simp only [statement, hkind]
    rfl
  rw [hstatement, gather_importAt hlist]

theorem importless_method (className classId : String) (t : Tree) :
    Ensures (method s className classId t) Importless := by
  refine .named .nil fun name => ?_
  refine .after fun parameters => .after fun returns => ?_
  refine .bind (OnlyCalls.ofBody s _ _ _) fun calls hcalls => .pure ?_
  exact .append (.ofEdges (by simp [definesEdge])) (.ofCalls hcalls)

theorem importless_classDefinition (t : Tree) : Ensures (classDefinition s t) Importless := by
  refine .named .nil fun name => ?_
  exact .bind (Importless.gather fun m _ => importless_method _ _ m) fun methods hmethods =>
    .pure (.append (.ofEdges (by simp)) hmethods)

theorem importless_function (route : Option String) (t : Tree) :
    Ensures (function s route t) Importless := by
  refine .named .nil fun name => ?_
  refine .after fun parameters => .after fun returns => ?_
  refine .bind (OnlyCalls.ofBody s _ _ _) fun calls hcalls => .pure ?_
  exact .append (.append (.ofEdges (by simp)) (.ofCalls hcalls)) (.ofRoute _ t _)

theorem importless_statement {t : Tree} (himport : t.kind ≠ "import_statement")
    (hfrom : t.kind ≠ "import_from_statement") : Ensures (statement s t) Importless := by
  unfold statement
  split
  · next h => exact absurd h himport
  · next h => exact absurd h hfrom
  · exact importless_classDefinition t
  · exact importless_function none t
  · refine .after fun route => ?_
    split
    · exact importless_function route _
    · exact importless_classDefinition _
    · exact .pure .nil
  · exact .ok .nil

theorem exists_infix_of_extract {t : Tree} (hem : extract s = .ok em)
    (ht : t ∈ s.parsed.root.children) :
    ∃ part, statement s t = .ok part ∧ part.edges <:+: em.edges := by
  obtain ⟨parts, hparts, hedges⟩ := exists_of_withComments hem
  rw [← hedges]
  exact exists_infix_of_gather hparts ht

/-- The imports of a file come from the import statements at its top. -/
theorem importedBy {e : Edge} (hem : extract s = .ok em) (he : e ∈ em.edges)
    (himports : e.relation = .imports) :
    ∃ t ∈ s.parsed.root.children,
      (t.kind = "import_statement" ∨ t.kind = "import_from_statement") ∧
        ∃ part, statement s t = .ok part ∧ e ∈ part.edges := by
  obtain ⟨parts, hparts, hedges⟩ := exists_of_withComments hem
  rw [← hedges] at he
  obtain ⟨t, ht, part, hpart, he⟩ := exists_part_of_gather hparts he
  refine ⟨t, ht, ?_, part, hpart, he⟩
  by_contra hother
  rw [not_or] at hother
  exact importless_statement hother.1 hother.2 part hpart e he himports

end Python

namespace Php

/-- The clauses of a `use` declaration list names. -/
def UseList (s : Site) (t : Tree) (names : List String) : Prop :=
  (t.children.filter fun c => c.kind == "namespace_use_clause").map s.parsed.text = names.map .ok

def nameEdge (s : Site) (name : String) : Edge :=
  s.importEdge (Node.makeId "" name) ("use " ++ name)

theorem useDeclaration_of_useList {t : Tree} {names : List String} (hlist : UseList s t names) :
    useDeclaration s t =
      .ok { edges := ((names.take 1).filter fun n => !n.isEmpty).map (nameEdge s) } := by
  have hfirst : s.parsed.childText t "namespace_use_clause" = .ok (names.headD "") := by
    have hhead := congrArg List.head? hlist
    rw [head?_map, head?_map, head?_filter] at hhead
    unfold Source.Parsed.childText Tree.child?
    cases names with
    | nil =>
      rw [Option.map_eq_none_iff.1 hhead]
      rfl
    | cons n rest =>
      obtain ⟨c, hc, hn⟩ := Option.map_eq_some_iff.1 hhead
      rw [hc]
      exact hn
  refine bind_eq_ok_iff.2 ⟨_, hfirst, ?_⟩
  cases names with
  | nil => rfl
  | cons n rest =>
    rw [headD_cons, take_succ_cons, take_zero]
    by_cases hempty : n.isEmpty
    · rw [if_pos hempty, filter_cons_of_neg (by simp [hempty])]
      rfl
    · rw [if_neg hempty, filter_cons_of_pos (by simpa using hempty)]
      rfl

structure FromUses (s : Site) (ts : List Tree) (em : Emission) : Prop where
  together : ∀ t ∈ ts, t.kind = "namespace_use_declaration" →
    ∃ part, useDeclaration s t = .ok part ∧ part.edges <:+: em.edges
  alone : ∀ e ∈ em.edges, e.relation = .imports →
    ∃ t ∈ ts, t.kind = "namespace_use_declaration" ∧ ∃ part, useDeclaration s t = .ok part ∧
      e ∈ part.edges

namespace FromUses

variable {t : Tree} {rest : List Tree} {first others : Emission}

theorem nil : FromUses s [] {} :=
  ⟨fun _ h => absurd h not_mem_nil, fun _ h => absurd h not_mem_nil⟩

theorem use (hkind : t.kind = "namespace_use_declaration") (hfirst : useDeclaration s t = .ok first)
    (h : FromUses s rest others) : FromUses s (t :: rest) (first ++ others) := by
  constructor
  · intro u hu hku
    rcases mem_cons.1 hu with rfl | hu
    · exact ⟨first, hfirst, (prefix_append _ _).isInfix⟩
    · obtain ⟨part, hpart, hwithin⟩ := h.together u hu hku
      exact ⟨part, hpart, hwithin.trans (suffix_append _ _).isInfix⟩
  · intro e he himports
    rcases mem_append.1 he with he | he
    · exact ⟨t, mem_cons_self, hkind, first, hfirst, he⟩
    · obtain ⟨u, hu, hpart⟩ := h.alone e he himports
      exact ⟨u, mem_cons_of_mem t hu, hpart⟩

theorem other (hkind : t.kind ≠ "namespace_use_declaration") (hfirst : Importless first)
    (h : FromUses s rest others) : FromUses s (t :: rest) (first ++ others) := by
  constructor
  · intro u hu hku
    obtain ⟨part, hpart, hwithin⟩ :=
      h.together u ((mem_cons.1 hu).resolve_left fun heq => hkind (heq ▸ hku)) hku
    exact ⟨part, hpart, hwithin.trans (suffix_append _ _).isInfix⟩
  · intro e he himports
    have he := (mem_append.1 he).resolve_left fun he => hfirst e he himports
    obtain ⟨u, hu, hpart⟩ := h.alone e he himports
    exact ⟨u, mem_cons_of_mem t hu, hpart⟩

end FromUses

theorem onlyCalls_callEdges (source : String) (t : Tree) :
    Ensures (callEdges s source t) OnlyCalls := by
  refine .after fun called => ?_
  split
  · exact .pure .nil
  · exact .after fun text => .pure ⟨rfl, fun d hd => by rw [mem_singleton.1 hd]; rfl⟩

theorem importless_method (className classId : String) (t : Tree) :
    Ensures (method s className classId t) Importless := by
  refine .named .nil fun name => ?_
  refine .after fun visible => .after fun parameters => .after fun returns => .after fun route => ?_
  refine .bind (OnlyCalls.walkBody (onlyCalls_callEdges _) _) fun calls hcalls => .pure ?_
  exact .append (.append (.ofEdges (by simp [definesEdge])) (.ofRoute _ t _)) (.ofCalls hcalls)

theorem importless_classDeclaration (namespaceName : String) (t : Tree) :
    Ensures (classDeclaration s namespaceName t) Importless := by
  refine .named .nil fun name => ?_
  refine .after fun route => ?_
  refine .bind (Importless.gather fun m _ => importless_method _ _ m) fun methods hmethods =>
    .pure ?_
  exact .append (.append (.ofEdges (by simp)) (.ofRoute _ t _)) hmethods

theorem importless_function (namespaceName : String) (t : Tree) :
    Ensures (function s namespaceName t) Importless := by
  refine .named .nil fun name => ?_
  refine .after fun parameters => .after fun returns => ?_
  refine .bind (OnlyCalls.walkBody (onlyCalls_callEdges _) _) fun calls hcalls => .pure ?_
  exact .append (.ofEdges (by simp)) (.ofCalls hcalls)

/-- The step over one statement, whatever it emits, in front of the statements behind it. -/
theorem fromUses_next {t : Tree} {ts : List Tree} {first rest : Reads Emission}
    (hkind : t.kind ≠ "namespace_use_declaration") (hfirst : Ensures first Importless)
    (hrest : Ensures rest (FromUses s ts)) :
    Ensures (first >>= fun a => rest >>= fun b => Pure.pure (a ++ b)) (FromUses s (t :: ts)) :=
  .bind hfirst fun _ ha => .bind hrest fun _ hb => .pure (.other hkind ha hb)

theorem fromUses_statements (ts : List Tree) (namespaceName : String) :
    Ensures (statements s namespaceName ts) (FromUses s ts) := by
  -- the namespace changes on the way, so it stays general
  induction ts generalizing namespaceName with
  | nil => exact .ok .nil
  | cons t rest ih =>
    unfold statements
    split
    · next hnamespace =>
      have hkind : t.kind ≠ "namespace_use_declaration" := by
        rw [beq_iff_eq.1 hnamespace]
        decide
      exact .after fun name => fun em hem => .other hkind .nil (ih name em hem)
    · dsimp only
      split
      · next hkind =>
        exact .read fun first hfirst =>
          .bind (ih namespaceName) fun _ hb => .pure (.use hkind hfirst hb)
      · next hkind =>
        exact fromUses_next (by rw [hkind]; decide) (importless_classDeclaration namespaceName t)
          (ih namespaceName)
      · next hkind =>
        exact fromUses_next (by rw [hkind]; decide) (importless_function namespaceName t)
          (ih namespaceName)
      · next hkind _ _ => exact fromUses_next hkind (.ok .nil) (ih namespaceName)

theorem fromUses_extract (hem : extract s = .ok em) : FromUses s s.parsed.root.children em := by
  obtain ⟨parts, hparts, hedges⟩ := exists_of_withComments hem
  have hfrom := fromUses_statements _ "" parts hparts
  exact ⟨hedges ▸ hfrom.together, hedges ▸ hfrom.alone⟩

theorem forall₂_take_iff {R : String → Edge → Prop} {f : String → Edge} (hR : ∀ n, R n (f n))
    (names : List String) :
    List.Forall₂ R names (((names.take 1).filter fun n => !n.isEmpty).map f) ↔
      names.length ≤ 1 ∧ ∀ n ∈ names, n ≠ "" := by
  constructor
  · intro h
    have hlength : names.length ≤ 1 := by
      have hkept := length_filter_le (fun n : String => !n.isEmpty) (names.take 1)
      have hsame := h.length_eq
      rw [length_map] at hsame
      rw [length_take] at hkept
      omega
    rw [take_of_length_le hlength, forall₂_map_filter_iff hR] at h
    exact ⟨hlength, fun n hn => by simpa using h n hn⟩
  · rintro ⟨hlength, hnames⟩
    rw [take_of_length_le hlength, forall₂_map_filter_iff hR]
    exact fun n hn => by simpa using hnames n hn

end Php

/-- **Which listed modules have an edge.** A Python import statement emits one edge for each listed
module that keeps its name, and a PHP `use` declaration one for its first clause, so every listed
module has its edge exactly if none is renamed, and exactly if there is at most one clause. Missing
names have none. The edges of a statement at the top of a file stand together among the edges of the
file, and no import comes from elsewhere. -/
theorem imports_complete_iff (s : Site) (t : Tree) :
    (∀ modules : List Python.ListedModule, t.kind = "import_statement" →
      Python.ImportList s t.children modules →
      ∃ part, Python.statement s t = .ok part ∧ part.nodes = [] ∧
        part.edges = (modules.filter Python.ListedModule.isTaken).map
          (fun m => Python.moduleEdge s m.name) ∧
        (List.Forall₂ (fun m e => s.Imports (Node.makeId m.name "__file__") e) modules part.edges ↔
          ∀ m ∈ modules, m.form = .plain ∧ m.name ≠ "") ∧
        ∀ em, Python.extract s = .ok em → (t ∈ s.parsed.root.children → part.edges <:+: em.edges) ∧
          ∀ e ∈ em.edges, e.relation = .imports → ∃ u ∈ s.parsed.root.children,
            (u.kind = "import_statement" ∨ u.kind = "import_from_statement") ∧
              ∃ part', Python.statement s u = .ok part' ∧ e ∈ part'.edges) ∧
    ∀ names : List String, t.kind = "namespace_use_declaration" → Php.UseList s t names →
      ∃ part, Php.useDeclaration s t = .ok part ∧ part.nodes = [] ∧
        part.edges = ((names.take 1).filter fun n => !n.isEmpty).map (Php.nameEdge s) ∧
        (List.Forall₂ (fun n e => s.Imports (Node.makeId "" n) e) names part.edges ↔
          names.length ≤ 1 ∧ ∀ n ∈ names, n ≠ "") ∧
        ∀ em, Php.extract s = .ok em → (t ∈ s.parsed.root.children → part.edges <:+: em.edges) ∧
          ∀ e ∈ em.edges, e.relation = .imports → ∃ u ∈ s.parsed.root.children,
            u.kind = "namespace_use_declaration" ∧ ∃ part', Php.useDeclaration s u = .ok part' ∧
              e ∈ part'.edges := by
  constructor
  · intro modules hkind hlist
    have hread := Python.statement_of_importList hkind hlist
    refine ⟨_, hread, rfl, rfl, ?_, fun em hem => ⟨fun ht => ?_,
      fun e he => Python.importedBy hem he⟩⟩
    · refine (forall₂_map_filter_iff (fun m => s.imports_importEdge _ ("import " ++ m.name))
        modules).trans ?_
      simp [Python.ListedModule.isTaken]
    · obtain ⟨part, hpart, hwithin⟩ := Python.exists_infix_of_extract hem ht
      rwa [← Except.ok.inj (hread.symm.trans hpart)] at hwithin
  · intro names hkind hlist
    have hread := Php.useDeclaration_of_useList hlist
    refine ⟨_, hread, rfl, rfl, Php.forall₂_take_iff (fun n => s.imports_importEdge _ _) names,
      fun em hem => ?_⟩
    have hfrom := Php.fromUses_extract hem
    refine ⟨fun ht => ?_, hfrom.alone⟩
    obtain ⟨part, hpart, hwithin⟩ := hfrom.together t ht hkind
    rwa [← Except.ok.inj (hread.symm.trans hpart)] at hwithin

/-- `import os, numpy as np` -/
def renamingImport : Tree :=
  .node "import_statement" 0 22
    [.node "import" 0 6 [], .node "dotted_name" 7 9 [], .node "," 9 10 [],
      .node "aliased_import" 11 22 [.node "dotted_name" 11 16 [], .node "as" 17 19 [],
        .node "identifier" 20 22 []]]

def renamingSite : Site :=
  ⟨"a.py", "python", ⟨Text.Utf8.encode "import os, numpy as np",
    .node "module" 0 22 [renamingImport]⟩⟩

/-- `use A, B;` -/
def doubleUse : Tree :=
  .node "namespace_use_declaration" 6 15
    [.node "use" 6 9 [], .node "namespace_use_clause" 10 11 [], .node "," 11 12 [],
      .node "namespace_use_clause" 13 14 [], .node ";" 14 15 []]

def doubleUseSite : Site :=
  ⟨"a.php", "php", ⟨Text.Utf8.encode "<?php use A, B;", .node "program" 0 15 [doubleUse]⟩⟩

theorem imports_complete_iff_renamed_and_double :
    (Python.ImportList renamingSite renamingImport.children [⟨.plain, "os"⟩, ⟨.renamed, "numpy"⟩] ∧
      ∃ part, Python.statement renamingSite renamingImport = .ok part ∧
        part.edges = [Python.moduleEdge renamingSite "os"] ∧
        ¬ List.Forall₂
          (fun (m : Python.ListedModule) e =>
            renamingSite.Imports (Node.makeId m.name "__file__") e)
          [⟨.plain, "os"⟩, ⟨.renamed, "numpy"⟩] part.edges) ∧
    Php.UseList doubleUseSite doubleUse ["A", "B"] ∧
      ∃ part, Php.useDeclaration doubleUseSite doubleUse = .ok part ∧
        part.edges = [Php.nameEdge doubleUseSite "A"] ∧
        ¬ List.Forall₂ (fun n e => doubleUseSite.Imports (Node.makeId "" n) e)
          ["A", "B"] part.edges := by
  have himport : Python.ImportList renamingSite renamingImport.children
      [⟨.plain, "os"⟩, ⟨.renamed, "numpy"⟩] := by
    refine .other (by decide) (by decide) (.plain rfl (eq_ok_of_toOption (by decide +kernel)) ?_)
    refine .other (by decide) (by decide) (.renamed rfl rfl (eq_ok_of_toOption (by decide +kernel))
      .nil)
  have huse : Php.UseList doubleUseSite doubleUse ["A", "B"] := by
    have hA : doubleUseSite.parsed.text (.node "namespace_use_clause" 10 11 []) = .ok "A" :=
      eq_ok_of_toOption (by decide +kernel)
    have hB : doubleUseSite.parsed.text (.node "namespace_use_clause" 13 14 []) = .ok "B" :=
      eq_ok_of_toOption (by decide +kernel)
    have hclauses : doubleUse.children.filter (fun c => c.kind == "namespace_use_clause") =
        [.node "namespace_use_clause" 10 11 [], .node "namespace_use_clause" 13 14 []] := rfl
    rw [Php.UseList, hclauses, map_cons, map_singleton, hA, hB]
    rfl
  obtain ⟨part, hpart, -, hedges, hiff, -⟩ :=
    (imports_complete_iff renamingSite renamingImport).1 _ rfl himport
  obtain ⟨part', hpart', -, hedges', hiff', -⟩ :=
    (imports_complete_iff doubleUseSite doubleUse).2 _ rfl huse
  refine ⟨⟨himport, part, hpart, hedges, ?_⟩, huse, part', hpart', hedges', ?_⟩
  · rw [hiff]
    exact fun h => absurd (h ⟨.renamed, "numpy"⟩ (by simp)).1 (by decide)
  · rw [hiff']
    exact fun h => absurd h.1 (by decide)

end CodeAtlas.Extract
