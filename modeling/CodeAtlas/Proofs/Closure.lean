import CodeAtlas.Proofs.Grounded

/-!
# The extracted graph is closed

Whatever the extractor of a language returns for a file, no edge hangs in the air: calls, requests
and definitions start at a node that the same file gave, definitions end at one, and requests end at
an endpoint of the file. Only a method of a Go file is defined by the type of its receiver, which
another file may declare.

Each section grounds the emissions of one language, from the parts of a body up to the file. A class
or a function is a node followed by what leans on it, so these proofs end with `Grounded.append`.
-/

namespace CodeAtlas.Extract

open List
open Source (Tree Parsed)

variable {s : Site} {outer : List Node} {t : Tree}

namespace Script

theorem grounded_importStatement (d : Dialect) (t : Tree) :
    Ensures (importStatement s d t) (Grounded s none outer) := by
  unfold importStatement
  refine .after fun raw => ?_
  split
  · exact .pure .nil
  · dsimp only
    split
    · exact .after fun names => .pure .ofImport
    · exact .after fun names => .pure .ofImport

section Holds

variable (ht : s.Holds t)

include ht

theorem grounded_functionAt {decl : Tree} (hdecl : s.Holds decl) (d : Dialect)
    (name : String) : Ensures (functionAt s d name t decl) (Grounded s none outer) := by
  unfold functionAt
  refine .after fun parameters => .after fun returns => ?_
  refine Grounded.under (grounded_requests hdecl) fun body hbody => .pure ?_
  exact (Grounded.ofNode (placed_symbol ht _ _ _ _)).append hbody

theorem grounded_functionDeclaration (d : Dialect) :
    Ensures (functionDeclaration s d t) (Grounded s none outer) := by
  unfold functionDeclaration
  exact .named .nil fun name => grounded_functionAt ht ht d name

theorem grounded_method {c : Node} (hc : c ∈ outer) (d : Dialect)
    (className : String) : Ensures (method s d className c.id t) (Grounded s none outer) := by
  unfold method
  refine .named .nil fun name => ?_
  refine .after fun parameters => .after fun returns => .after fun visibility => ?_
  refine Grounded.under (grounded_requests ht) fun body hbody => .pure ?_
  exact (Grounded.ofMember (placed_symbol ht _ _ _ _) hc).append hbody

theorem grounded_classDeclaration (d : Dialect) :
    Ensures (classDeclaration s d t) (Grounded s none outer) := by
  unfold classDeclaration
  refine .named .nil fun name => ?_
  dsimp only
  refine Grounded.under (n := s.symbol .classDecl name t) (Grounded.gather fun m hm => ?_)
    fun methods hmethods => .pure ?_
  · -- a member is a tree node below the class body
    refine grounded_method ?_ mem_cons_self d name
    split at hm
    · next body hbody => exact (ht.child hbody).of_mem_children (mem_filter.mp hm).1
    · exact absurd hm not_mem_nil
  · exact (Grounded.ofNode (placed_symbol ht _ _ _ _)).append hmethods

theorem grounded_variableFunctions (d : Dialect) :
    Ensures (variableFunctions s d t) (Grounded s none outer) := by
  refine Grounded.gather fun c hc => ?_
  have hholds := ht.of_mem_children hc
  split
  · exact .pure .nil
  · split
    · next nameTree decl _ hdecl =>
      split
      · exact .pure .nil
      · refine .after fun name => grounded_functionAt ht ?_ d name
        rcases Option.or_eq_some_iff.mp hdecl with h | ⟨-, h⟩
        · exact hholds.child h
        · exact hholds.child h
    · exact .pure .nil

theorem grounded_interfaceDeclaration :
    Ensures (interfaceDeclaration s t) (Grounded s none outer) := by
  unfold interfaceDeclaration
  exact .named .nil fun name => .pure (.ofNode (placed_symbol ht _ _ _ _))

theorem grounded_enumDeclaration :
    Ensures (enumDeclaration s t) (Grounded s none outer) := by
  unfold enumDeclaration
  exact .named .nil fun name => .pure (.ofNode (placed_symbol ht _ _ _ _))

theorem grounded_exportAssignment (d : Dialect) :
    Ensures (exportAssignment s d t) (Grounded s none outer) := by
  unfold exportAssignment
  split
  · exact .pure .nil
  · next assign hassign =>
    split
    · exact .pure .nil
    · refine .after fun target => ?_
      split
      · exact .pure .nil
      · split
        · exact .pure .nil
        · next decl hdecl =>
          have hmem := mem_of_find?_eq_some hdecl
          exact .after fun own =>
            grounded_functionAt ht ((ht.child hassign).of_mem_children hmem) d _

theorem grounded_declaration (d : Dialect) :
    Ensures (declaration s d t) (Grounded s none outer) := by
  unfold declaration
  split
  · exact grounded_functionDeclaration ht d
  · exact grounded_classDeclaration ht d
  · exact grounded_variableFunctions ht d
  · exact grounded_variableFunctions ht d
  · split
    · exact grounded_interfaceDeclaration ht
    · exact .ok .nil
  · split
    · exact grounded_enumDeclaration ht
    · exact .ok .nil
  · exact .ok .nil

theorem grounded_statement (d : Dialect) :
    Ensures (statement s d t) (Grounded s none outer) := by
  unfold statement
  split
  · exact grounded_importStatement d t
  · exact Grounded.gather fun c hc => grounded_declaration (ht.of_mem_children hc) d
  · exact grounded_exportAssignment ht d
  · exact grounded_declaration ht d

end Holds

theorem grounded_extract (d : Dialect) : Ensures (extract d s) (Grounded s none []) := by
  refine .keep (Grounded.gather fun t ht => ?_) fun e he => grounded_withComments he
  exact grounded_statement (Site.Holds.root.of_mem_children ht) d

end Script

namespace Python

theorem grounded_importStatement (t : Tree) :
    Ensures (importStatement s t) (Grounded s none outer) := by
  refine Grounded.gather fun c _ => ?_
  split
  · refine .after fun name => ?_
    split
    · exact .pure .nil
    · exact .pure .ofImport
  · exact .pure .nil

theorem grounded_fromImport (t : Tree) : Ensures (fromImport s t) (Grounded s none outer) := by
  unfold fromImport
  refine .after fun parts => ?_
  dsimp only
  split
  · exact .pure .nil
  · exact .pure .ofImport

theorem grounded_method (ht : s.Holds t) {c : Node} (hc : c ∈ outer) (className : String) :
    Ensures (method s className c.id t) (Grounded s none outer) := by
  unfold method
  refine .named .nil fun name => ?_
  refine .after fun parameters => .after fun returns => ?_
  refine Grounded.under (grounded_calls ht) fun calls hcalls => .pure ?_
  exact (Grounded.ofMember (placed_symbol ht _ _ _ _) hc).append hcalls

theorem holds_memberFunction {member f : Tree} (hm : s.Holds member)
    (hf : memberFunction? member = some f) : s.Holds f := by
  unfold memberFunction? at hf
  split at hf
  · rw [← Option.some.inj hf]
    exact hm
  · split at hf
    · exact hm.child hf
    · cases hf

theorem grounded_classDefinition (ht : s.Holds t) :
    Ensures (classDefinition s t) (Grounded s none outer) := by
  unfold classDefinition
  refine .named .nil fun name => ?_
  dsimp only
  refine Grounded.under (n := s.symbol .classDecl name t) (Grounded.gather fun f hf => ?_)
    fun methods hmethods => .pure ?_
  · -- a method may stand in a decorated definition, one level further down
    refine grounded_method ?_ mem_cons_self name
    split at hf
    · next body hbody =>
      obtain ⟨member, hmember, hfun⟩ := mem_filterMap.mp hf
      exact holds_memberFunction ((ht.child hbody).of_mem_children hmember) hfun
    · exact absurd hf not_mem_nil
  · exact (Grounded.ofNode (placed_symbol ht _ _ _ _)).append hmethods

theorem grounded_function (ht : s.Holds t) (route : Option String) :
    Ensures (function s route t) (Grounded s none outer) := by
  unfold function
  refine .named .nil fun name => ?_
  refine .after fun parameters => .after fun returns => ?_
  refine Grounded.under (grounded_calls ht) fun calls hcalls => .pure ?_
  -- the function comes first, so both its calls and its route may lean on it
  refine ((Grounded.ofNode (placed_symbol ht _ _ _ _)).append hcalls).append ?_
  exact grounded_routeEmission ht (by simp [Emission.ofNode]) _

theorem grounded_decorated (ht : s.Holds t) : Ensures (decorated s t) (Grounded s none outer) := by
  unfold decorated
  refine .after fun route => ?_
  split
  · next f _ hf => exact grounded_function (ht.child hf) route
  · next c _ hc => exact grounded_classDefinition (ht.child hc)
  · exact .pure .nil

theorem grounded_statement (ht : s.Holds t) : Ensures (statement s t) (Grounded s none outer) := by
  unfold statement
  split
  · exact grounded_importStatement t
  · exact grounded_fromImport t
  · exact grounded_classDefinition ht
  · exact grounded_function ht none
  · exact grounded_decorated ht
  · exact .ok .nil

theorem grounded_extract : Ensures (extract s) (Grounded s none []) := by
  refine .keep (Grounded.gather fun t ht => ?_) fun e he => grounded_withComments he
  exact grounded_statement (Site.Holds.root.of_mem_children ht)

end Python

namespace Php

theorem grounded_body {kind : String} {n : Node} (ht : s.Holds t) :
    Ensures (walkBody (callEdges s n.id) (t.child? kind)) (Grounded s none (n :: outer)) := by
  refine .walkBody ht fun u _ => ?_
  unfold callEdges
  refine .after fun callee => ?_
  split
  · exact .pure .nil
  · exact .after fun text => .pure (Grounded.ofCall mem_cons_self)

theorem grounded_method (ht : s.Holds t) {c : Node} (hc : c ∈ outer) (className : String) :
    Ensures (method s className c.id t) (Grounded s none outer) := by
  unfold method
  refine .named .nil fun name => ?_
  refine .after fun visible => .after fun parameters => .after fun returns => .after fun route => ?_
  refine Grounded.under (grounded_body ht) fun calls hcalls => .pure ?_
  -- the route stands between the method and its calls, which lean on the method all the same
  refine Grounded.append_on ?_ (by simp) hcalls
  refine (Grounded.ofMember (placed_symbol ht _ _ _ _) hc).append ?_
  exact grounded_routeEmission ht (by simp) _

theorem grounded_classDeclaration (ht : s.Holds t) (namespaceName : String) :
    Ensures (classDeclaration s namespaceName t) (Grounded s none outer) := by
  unfold classDeclaration
  refine .named .nil fun name => ?_
  refine .after fun route => ?_
  refine Grounded.under (n := s.symbol .classDecl (qualify namespaceName name) t {}
    (routeSummary (nonEmpty? route))) (Grounded.gather fun m hm => ?_) fun methods hmethods =>
      .pure ?_
  · refine grounded_method ?_ mem_cons_self _
    split at hm
    · next list hlist => exact (ht.child hlist).of_mem_children (mem_filter.mp hm).1
    · exact absurd hm not_mem_nil
  · refine Grounded.append_on ?_ (by simp [Emission.ofNode]) hmethods
    refine (Grounded.ofNode (placed_symbol ht _ _ _ _)).append ?_
    exact grounded_routeEmission ht (by simp [Emission.ofNode]) _

theorem grounded_function (ht : s.Holds t) (namespaceName : String) :
    Ensures (function s namespaceName t) (Grounded s none outer) := by
  unfold function
  refine .named .nil fun name => ?_
  refine .after fun parameters => .after fun returns => ?_
  refine Grounded.under (grounded_body ht) fun calls hcalls => .pure ?_
  exact (Grounded.ofNode (placed_symbol ht _ _ _ _)).append hcalls

theorem grounded_useDeclaration (t : Tree) :
    Ensures (useDeclaration s t) (Grounded s none outer) := by
  unfold useDeclaration
  exact .named .nil fun imported => .pure .ofImport

/-- The statements of a file, from any namespace on: a namespace only changes names. -/
theorem grounded_statements {ts : List Tree} (hts : ∀ t ∈ ts, s.Holds t) (namespaceName : String) :
    Ensures (statements s namespaceName ts) (Grounded s none outer) := by
  -- the namespace changes on the way, so it stays general
  induction ts generalizing namespaceName with
  | nil => exact .ok .nil
  | cons t rest ih =>
    have ht := hts t mem_cons_self
    have hrest := ih fun u hu => hts u (mem_cons_of_mem _ hu)
    unfold statements
    split
    · exact .after fun name => hrest name
    · dsimp only
      split
      · exact .keep (grounded_useDeclaration t) fun _ => Grounded.before (hrest namespaceName)
      · exact .keep (grounded_classDeclaration ht namespaceName) fun _ => Grounded.before
          (hrest namespaceName)
      · exact .keep (grounded_function ht namespaceName) fun _ => Grounded.before
          (hrest namespaceName)
      · exact .keep (.ok .nil) fun _ => Grounded.before (hrest namespaceName)

theorem grounded_extract : Ensures (extract s) (Grounded s none []) := by
  refine .keep (grounded_statements (fun t ht => ?_) "") fun e he => grounded_withComments he
  exact Site.Holds.root.of_mem_children ht

end Php

namespace Go

variable {definers : Option (String → Prop)}

/-- The identifiers that define methods: those of the receiver types of the methods of a file. -/
def IsReceiverId (s : Site) (id : String) : Prop :=
  ∃ t ∈ s.parsed.root.children, t.kind = "method_declaration" ∧
    ∃ receiver, receiverType s t = .ok receiver ∧ receiver ≠ "" ∧ id = s.idOf receiver

theorem grounded_importDeclaration (t : Tree) :
    Ensures (importDeclaration s t) (Grounded s definers outer) := by
  refine Grounded.gather fun spec _ => ?_
  unfold importSpec
  refine .after fun raw => ?_
  split
  · exact .pure .nil
  · exact .after fun name => .pure .ofImport

theorem grounded_function (ht : s.Holds t) :
    Ensures (function s t) (Grounded s definers outer) := by
  unfold function
  refine .named .nil fun name => ?_
  refine .after fun parameters => .after fun returns => ?_
  refine Grounded.under (grounded_requests ht) fun body hbody => .pure ?_
  exact (Grounded.ofNode (placed_symbol ht _ _ _ _)).append hbody

theorem grounded_method (ht : s.Holds t) (hmem : t ∈ s.parsed.root.children)
    (hkind : t.kind = "method_declaration") :
    Ensures (method s t) (Grounded s (some (IsReceiverId s)) outer) := by
  unfold method
  refine .named .nil fun name => ?_
  -- `after` would forget where the receiver's type came from
  refine .bind (Q := fun receiver => receiverType s t = .ok receiver) (fun _ h => h)
    fun receiver hreceiver => ?_
  refine .after fun parameters => .after fun returns => ?_
  refine Grounded.under (grounded_requests ht) fun body hbody => .pure ?_
  refine Grounded.append ?_ hbody
  split
  · exact .ofNode (placed_symbol ht _ _ _ _)
  · next hne =>
    refine .ofDefined (placed_symbol ht _ _ _ _) ⟨t, hmem, hkind, receiver, hreceiver, ?_, rfl⟩
    intro h
    exact hne (by rw [h]; rfl)

theorem grounded_typeSpec (ht : s.Holds t) :
    Ensures (typeSpec s t) (Grounded s definers outer) := by
  unfold typeSpec
  refine .named .nil fun name => ?_
  split
  · exact .pure (.ofNode (placed_symbol ht _ _ _ _))
  · split
    · exact .pure (.ofNode (placed_symbol ht _ _ _ _))
    · exact .pure (.ofNode (placed_symbol ht _ _ _ _))

theorem grounded_declaration (ht : s.Holds t) (hmem : t ∈ s.parsed.root.children) :
    Ensures (declaration s t) (Grounded s (some (IsReceiverId s)) outer) := by
  unfold declaration
  split
  · exact grounded_importDeclaration t
  · exact grounded_function ht
  · next hkind => exact grounded_method ht hmem hkind
  · refine Grounded.gather fun c hc => grounded_typeSpec ?_
    exact ht.of_mem_children (mem_filter.mp hc).1
  · exact .ok .nil

theorem grounded_extract : Ensures (extract s) (Grounded s (some (IsReceiverId s)) []) := by
  refine .keep (Grounded.gather fun t ht => ?_) fun e he => grounded_withComments he
  exact grounded_declaration (Site.Holds.root.of_mem_children ht) ht

end Go

/-! ## C#

Classes nest, and so do namespaces. Both recursions go down the tree, so the proofs are mutual in
the same way as the definitions; what a nested class leans on grows by the class around it. -/

namespace CSharp

theorem grounded_method (ht : s.Holds t) {c : Node} (hc : c ∈ outer) (className : String) :
    Ensures (method s className c.id t) (Grounded s none outer) := by
  unfold method
  refine .named .nil fun name => ?_
  refine .after fun visible => .after fun async => .after fun names => .after fun returns =>
    .after fun route => ?_
  -- a body is a block or an arrow with an expression, and both are walked
  refine Grounded.under (grounded_calls ht) fun block hblock => ?_
  refine Grounded.under (grounded_calls ht) fun arrow harrow => .pure ?_
  refine Grounded.append_on (Grounded.append_on ?_ (by simp) hblock) (by simp) harrow
  refine (Grounded.ofMember (placed_symbol ht _ _ _ _) hc).append ?_
  exact grounded_routeEmission ht (by simp) _

theorem grounded_constructor (ht : s.Holds t) {c : Node} (hc : c ∈ outer) (className : String) :
    Ensures (constructor s className c.id t) (Grounded s none outer) := by
  unfold constructor
  refine .named .nil fun name => ?_
  refine .after fun visible => .after fun names => ?_
  refine Grounded.under (grounded_calls ht) fun calls hcalls => .pure ?_
  refine (Grounded.ofMember ?_ hc).append hcalls
  exact ⟨rfl, t, ht, rfl⟩

theorem grounded_interfaceDeclaration (ht : s.Holds t) (name : String) :
    Ensures (interfaceDeclaration s name t) (Grounded s none outer) := by
  unfold interfaceDeclaration
  exact .named .nil fun name => .pure (.ofNode (placed_symbol ht _ _ _ _))

theorem holds_of_mem_bodyMembers {t m : Tree} (ht : s.Holds t) (hm : m ∈ bodyMembers t.children) :
    s.Holds m := by
  obtain ⟨body, hbody, hm⟩ := exists_of_mem_bodyMembers hm
  exact (ht.of_mem_children hbody).of_mem_children hm

theorem grounded_classDeclaration (outer : List Node) (around : String) (ht : s.Holds t) :
    Ensures (classDeclaration s around t) (Grounded s none outer) := by
  induction t using member_induction generalizing outer around with
  | step t ih =>
    rw [classDeclaration_eq]
    refine .named .nil fun name => ?_
    refine .after fun visible => ?_
    -- the members lean on the class, and a nested class on all classes around it
    refine Grounded.under (Grounded.gather fun m hm => ?_) fun members hmembers =>
      .pure ((Grounded.ofNode (placed_symbol ht _ _ _ _)).append hmembers)
    have hholds := holds_of_mem_bodyMembers ht hm
    unfold classMember
    split
    · exact grounded_method hholds mem_cons_self _
    · exact grounded_constructor hholds mem_cons_self _
    · exact ih m hm _ _ hholds
    · exact .ok .nil

theorem grounded_namespaceDeclaration (ht : s.Holds t) :
    Ensures (namespaceDeclaration s t) (Grounded s none outer) := by
  induction t using member_induction with
  | step t ih =>
    rw [namespaceDeclaration_eq]
    refine .after fun name => Grounded.gather fun m hm => ?_
    have hholds := holds_of_mem_bodyMembers ht hm
    unfold namespaceMember
    split
    · exact grounded_classDeclaration outer name hholds
    · exact grounded_interfaceDeclaration hholds name
    · exact ih m hm hholds
    · exact .ok .nil

theorem grounded_usingDirective (t : Tree) :
    Ensures (usingDirective s t) (Grounded s none outer) := by
  unfold usingDirective
  exact .named .nil fun name => .pure .ofImport

theorem grounded_declaration (ht : s.Holds t) :
    Ensures (declaration s t) (Grounded s none outer) := by
  unfold declaration
  split
  · exact grounded_usingDirective t
  · exact grounded_namespaceDeclaration ht
  · exact grounded_classDeclaration outer "" ht
  · exact grounded_interfaceDeclaration ht ""
  · exact .ok .nil

theorem grounded_extract : Ensures (extract s) (Grounded s none []) := by
  refine .keep (Grounded.gather fun t ht => ?_) fun e he => grounded_withComments he
  exact grounded_declaration (Site.Holds.root.of_mem_children ht)

end CSharp

end CodeAtlas.Extract

namespace CodeAtlas

open Extract (Site Emission Ensures Grounded Placed)

/-- Where the definitions in a file of a language start: in a Go file at the receiver types of
methods, in any other file at nodes. -/
def Language.definers (l : Language) (s : Site) : Option (String → Prop) :=
  match l with
  | .go => some (Extract.Go.IsReceiverId s)
  | _ => none

/-- What a whole file emits leans on nothing outside of it. -/
theorem Language.grounded_extract (l : Language) (file : String) (parsed : Source.Parsed) :
    Ensures (l.extract file parsed)
      (Grounded ⟨file, l.name, parsed⟩ (l.definers ⟨file, l.name, parsed⟩) []) := by
  cases l with
  | php => exact Extract.Php.grounded_extract
  | javascript => exact Extract.Script.grounded_extract .plain
  | python => exact Extract.Python.grounded_extract
  | typescript => exact Extract.Script.grounded_extract .typed
  | go => exact Extract.Go.grounded_extract
  | csharp => exact Extract.CSharp.grounded_extract

/-- A graph in which no edge hangs in the air, read off the file `file` in the language `l`. -/
structure ClosedIn (l : Language) (file : String) (parsed : Source.Parsed) (e : Emission) :
    Prop where
  source_of_use : ∀ d ∈ e.edges, d.relation = .calls ∨ d.relation = .networksTo →
    ∃ n ∈ e.nodes, n.id = d.source
  source_of_definition : ∀ d ∈ e.edges, d.relation = .defines → l ≠ .go →
    ∃ n ∈ e.nodes, n.id = d.source
  source_of_go_definition : ∀ d ∈ e.edges, d.relation = .defines → l = .go →
    ∃ t ∈ parsed.root.children, t.kind = "method_declaration" ∧
      ∃ receiver, Extract.Go.receiverType ⟨file, l.name, parsed⟩ t = .ok receiver ∧ receiver ≠ "" ∧
        d.source = Node.makeId file receiver
  target_of_definition : ∀ d ∈ e.edges, d.relation = .defines → ∃ n ∈ e.nodes, n.id = d.target
  target_of_request : ∀ d ∈ e.edges, d.relation = .networksTo →
    ∃ n ∈ e.nodes, n.kind = .endpoint ∧ n.id = d.target
  placed : ∀ n ∈ e.nodes, n.loc.file = file ∧ n.language = l.name ∧ 1 ≤ n.loc.first ∧
    n.loc.first ≤ n.loc.last

theorem Language.ofName?_name (l : Language) : Language.ofName? l.name = some l := by
  cases l <;> rfl

/-- **Extracted graphs are closed.** Whatever reading the symbols of a file in one of the six
languages returns, for a tree whose spans do not end before they start, is closed in that file. -/
theorem extractSymbols_closed (l : Language) (file : String) (parsed : Source.Parsed)
    (hroot : parsed.root.Spanned) (e : Emission) (he : extractSymbols l.name file parsed = .ok e) :
    ClosedIn l file parsed e := by
  rw [extractSymbols, Language.ofName?_name] at he
  have h := l.grounded_extract file parsed e he
  -- nothing surrounds a file, so what is known is what the file emits
  constructor
  · intro d hd hrel
    have hedge := h.edges d hd
    rw [List.append_nil] at hedge
    rcases hrel with hrel | hrel
    · simpa only [Extract.EdgeGrounded, hrel] using hedge
    · simp only [Extract.EdgeGrounded, hrel] at hedge
      exact hedge.1
  · intro d hd hrel hne
    have hedge := h.edges d hd
    rw [List.append_nil] at hedge
    simp only [Extract.EdgeGrounded, hrel] at hedge
    -- only Go has definers of its own
    have hnone : l.definers ⟨file, l.name, parsed⟩ = none := by
      cases l with
      | go => exact absurd rfl hne
      | _ => rfl
    rw [hnone] at hedge
    exact hedge.1
  · rintro d hd hrel rfl
    have hedge := h.edges d hd
    simp only [Extract.EdgeGrounded, hrel] at hedge
    exact hedge.1
  · intro d hd hrel
    have hedge := h.edges d hd
    simp only [Extract.EdgeGrounded, hrel] at hedge
    exact hedge.2
  · intro d hd hrel
    have hedge := h.edges d hd
    simp only [Extract.EdgeGrounded, hrel] at hedge
    exact hedge.2
  · intro n hn
    have hplaced := h.placed n hn
    exact ⟨hplaced.file, hplaced.language, hplaced.lines hroot⟩

/-- A Go file with one method, whose receiver type another file declares and whose body makes a
request. -/
def receiverElsewhere : Source.Parsed where
  bytes := Text.Utf8.encode "func (s *S) f() \x7b http.Get(\"/x\") \x7d"
  root := .node "source_file" 0 34 [.node "method_declaration" 0 34 [
    .node "parameter_list" 5 11 [.node "parameter_declaration" 6 10 [
      .node "pointer_type" 8 10 [.node "type_identifier" 9 10 []]]],
    .node "field_identifier" 12 13 [],
    .node "block" 16 34 [.node "call_expression" 18 32 [
      .node "selector_expression" 18 26 [],
      .node "argument_list" 26 32 [.node "interpreted_string_literal" 27 31 []]]]]]

theorem extractSymbols_closed_receiverElsewhere :
    receiverElsewhere.root.Spanned ∧
      ∃ e, extractSymbols Language.go.name "a.go" receiverElsewhere = .ok e ∧
        e.edges.map (·.relation) = [.defines, .calls, .networksTo] ∧
        ClosedIn .go "a.go" receiverElsewhere e := by
  have hspan : receiverElsewhere.root.Spanned := by decide
  -- only the relations are evaluated: identifiers are hashes
  have hrel : (extractSymbols Language.go.name "a.go" receiverElsewhere).toOption.map
      (fun e => e.edges.map (·.relation)) = some [.defines, .calls, .networksTo] := by
    decide +kernel
  cases he : extractSymbols Language.go.name "a.go" receiverElsewhere with
  | error fault =>
    rw [he] at hrel
    cases hrel
  | ok e =>
    rw [he] at hrel
    exact ⟨hspan, e, rfl, Option.some.inj hrel, extractSymbols_closed .go "a.go" _ hspan e he⟩

end CodeAtlas
