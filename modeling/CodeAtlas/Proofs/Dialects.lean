import CodeAtlas.Proofs.Grounded

/-!
# Two dialects, one reading

JavaScript and TypeScript files are read by rules that differ in a few places only: type
annotations, access modifiers, type names, interfaces, enumerations and default imports. Where a
tree has none of these, both readings come to the same.
-/

namespace CodeAtlas

open List

def Node.inLanguage (l : String) (n : Node) : Node :=
  { n with language := l }

namespace Extract

open Source (Tree)

variable {α : Type} {l : String} {s : Site} {t : Tree}

/-! ## Another language

Two readings are compared step by step. They may differ in the language of nodes only. -/

def Emission.inLanguage (l : String) (e : Emission) : Emission :=
  ⟨e.nodes.map (·.inLanguage l), e.edges⟩

theorem Emission.inLanguage_append (a b : Emission) :
    (a ++ b).inLanguage l = a.inLanguage l ++ b.inLanguage l := by
  show (⟨(a.nodes ++ b.nodes).map _, a.edges ++ b.edges⟩ : Emission) = ⟨_ ++ _, a.edges ++ b.edges⟩
  rw [map_append]
  rfl

def Site.inLanguage (s : Site) (l : String) : Site :=
  { s with language := l }

theorem Site.inLanguage_parsed : (s.inLanguage l).parsed = s.parsed :=
  rfl

/-- The first reading gives what the second one gives, in another language. -/
def Relabelled (l : String) (r' r : Reads Emission) : Prop :=
  r' = Emission.inLanguage l <$> r

namespace Relabelled

variable {r r' : Reads Emission}

theorem nothing : Relabelled l (.ok {}) (.ok {}) :=
  rfl

theorem ite {p : Prop} [Decidable p] {q q' : Reads Emission} (hr : Relabelled l r' r)
    (hq : Relabelled l q' q) : Relabelled l (if p then r' else q') (if p then r else q) := by
  split
  · exact hr
  · exact hq

theorem read (x : Reads α) {f' f : α → Reads Emission} (h : ∀ a, Relabelled l (f' a) (f a)) :
    Relabelled l (x >>= f') (x >>= f) := by
  unfold Relabelled
  rw [map_bind]
  exact bind_congr h

theorem emit (hr : Relabelled l r' r) {f' f : Emission → Reads Emission}
    (h : ∀ e, Relabelled l (f' (e.inLanguage l)) (f e)) : Relabelled l (r' >>= f') (r >>= f) := by
  unfold Relabelled at *
  rw [hr, bind_map_left, map_bind]
  exact bind_congr h

theorem after (hr : Relabelled l r' r) {first' first : Emission}
    (hfirst : first' = first.inLanguage l) :
    Relabelled l (r' >>= fun rest => pure (first' ++ rest))
      (r >>= fun rest => pure (first ++ rest)) := by
  apply hr.emit
  intro rest
  rw [hfirst, ← Emission.inLanguage_append]
  rfl

theorem gather {emit' emit : α → Reads Emission} {items : List α}
    (h : ∀ a ∈ items, Relabelled l (emit' a) (emit a)) :
    Relabelled l (Emission.gather emit' items) (Emission.gather emit items) := by
  induction items with
  | nil => rfl
  | cons a rest ih =>
    apply (h a mem_cons_self).emit
    intro first
    exact (ih fun b hb => h b (mem_cons_of_mem a hb)).after rfl

theorem walkBody {emit' emit : Tree → Reads Emission} (h : ∀ t, Relabelled l (emit' t) (emit t))
    (body? : Option Tree) : Relabelled l (walkBody emit' body?) (walkBody emit body?) := by
  cases body? with
  | none => rfl
  | some body => exact gather fun t _ => h t

end Relabelled

theorem firstMin?_map {β : Type} (f : α → β) (measure : β → Int) (xs : List α) :
    firstMin? measure (xs.map f) = (firstMin? (fun a => measure (f a)) xs).map f := by
  induction xs with
  | nil => rfl
  | cons a rest ih =>
    rw [map_cons, firstMin?, firstMin?, ih]
    cases firstMin? (fun a => measure (f a)) rest with
    | none => rfl
    | some b =>
      dsimp only [Option.map_some]
      split <;> rfl

theorem enclosingSymbol_inLanguage (line : Int) (symbols : List Node) :
    enclosingSymbol line (symbols.map (·.inLanguage l)) = (enclosingSymbol line symbols).map
      (·.inLanguage l) := by
  unfold enclosingSymbol
  dsimp only
  rw [filter_map, filter_map, firstMin?_map, firstMin?_map]
  simp only [Function.comp_def, Node.inLanguage]
  generalize firstMin? (fun n : Node => n.loc.last - n.loc.first) _ = around
  generalize firstMin? (fun n : Node => -n.loc.last) _ = before
  cases around with
  | some n => rfl
  | none =>
    cases before with
    | none => rfl
    | some n =>
      dsimp only [Option.map_none, Option.map_some]
      rw [Option.filter_some, Option.filter_some]
      split <;> rfl

theorem commentNode_inLanguage (symbols : List Node) (t : Tree) :
    commentNode (s.inLanguage l) (symbols.map (·.inLanguage l)) t =
      (Option.map (·.inLanguage l)) <$> commentNode s symbols t := by
  unfold commentNode
  rw [map_bind]
  apply bind_congr
  intro raw
  by_cases hshort : (commentText raw).length < shortestComment
  · simp only [if_pos hshort]
    rfl
  · simp only [if_neg hshort, enclosingSymbol_inLanguage, Site.inLanguage_parsed]
    cases enclosingSymbol (s.parsed.firstLine t) symbols <;> rfl

theorem collect_map {β γ : Type} {f' : α → Reads (Option γ)} {f : α → Reads (Option β)} {g : β → γ}
    (h : ∀ a, f' a = Option.map g <$> f a) (items : List α) :
    collect f' items = List.map g <$> collect f items := by
  induction items with
  | nil => rfl
  | cons a rest ih =>
    rw [collect, collect, h, ih, bind_map_left, map_bind]
    apply bind_congr
    intro first
    rw [bind_map_left, map_bind]
    apply bind_congr
    intro others
    cases first <;> rfl

theorem Relabelled.withComments (kinds : List String) (e : Emission) :
    Relabelled l (withComments (s.inLanguage l) kinds (e.inLanguage l))
      (withComments s kinds e) := by
  have hcomments : comments (s.inLanguage l) kinds (e.inLanguage l).nodes =
      List.map (·.inLanguage l) <$> comments s kinds e.nodes :=
    collect_map (commentNode_inLanguage e.nodes) _
  unfold Relabelled Extract.withComments
  rw [hcomments, bind_map_left, map_bind]
  apply bind_congr
  intro found
  show pure (e.inLanguage l ++ Emission.inLanguage l { nodes := found }) = _
  rw [← Emission.inLanguage_append]
  rfl

namespace Script

variable {d : Dialect}

/-! ## The language of a script

One lemma for each reader of scripts, in either dialect. -/

theorem requestEmission_inLanguage (f : RequestForm) (source calleeText : String) (t : Tree) :
    Relabelled l (f.requestEmission (s.inLanguage l) source t calleeText)
      (f.requestEmission s source t calleeText) := by
  unfold RequestForm.requestEmission
  cases (t.child? f.arguments).bind fun args => args.child? f.literal with
  | none => exact .nothing
  | some arg =>
    exact .read (s.parsed.text arg) fun raw => .ite .nothing rfl

theorem callEmission_inLanguage (source : String) (t : Tree) :
    Relabelled l (callEmission (s.inLanguage l) source t) (callEmission s source t) := by
  have hcall (calleeText : String) :
      Relabelled l (callAt (s.inLanguage l) source t calleeText)
        (callAt s source t calleeText) := by
    unfold callAt
    cases resolveCallee calleeText with
    | none => exact .nothing
    | some callee =>
      exact .ite (.read (.ok callee) fun _ => rfl) (.read (s.parsed.text t) fun _ => rfl)
  unfold callEmission RequestForm.callEmission
  refine .ite ?_ .nothing
  cases t.children.head? with
  | none => exact .nothing
  | some callee =>
    refine .read (s.parsed.text callee) fun calleeText => (hcall calleeText).emit fun call =>
      .ite ?_ ?_
    · exact (requestEmission_inLanguage requests source calleeText t).after rfl
    · exact Relabelled.nothing.after rfl

theorem functionAt_inLanguage (name : String) (t decl : Tree) :
    Relabelled l (functionAt (s.inLanguage l) d name t decl) (functionAt s d name t decl) := by
  refine .read (parameterNames s decl) fun parameters => .read (annotatedType s d decl)
    fun returns => ?_
  exact (Relabelled.walkBody (callEmission_inLanguage _) _).after rfl

theorem functionDeclaration_inLanguage (t : Tree) :
    Relabelled l (functionDeclaration (s.inLanguage l) d t) (functionDeclaration s d t) := by
  exact .read (s.parsed.childText t "identifier") fun name => .ite .nothing
    (functionAt_inLanguage name t t)

theorem accessModifier_inLanguage (children : List Tree) (found : Option String) :
    accessModifier (s.inLanguage l) d children found = accessModifier s d children found := by
  induction children generalizing found with
  | nil => rfl
  | cons c rest ih =>
    rw [accessModifier, accessModifier]
    simp only [ih]
    rfl

theorem method_inLanguage (className classId : String) (t : Tree) :
    Relabelled l (method (s.inLanguage l) d className classId t)
      (method s d className classId t) := by
  refine .read (s.parsed.childText t "property_identifier") fun name => .ite .nothing ?_
  refine .read (parameterNames s t) fun parameters => .read (annotatedType s d t) fun returns => ?_
  rw [accessModifier_inLanguage]
  refine .read (accessModifier s d t.children none) fun visibility => ?_
  exact (Relabelled.walkBody (callEmission_inLanguage _) _).after rfl

theorem classDeclaration_inLanguage (t : Tree) :
    Relabelled l (classDeclaration (s.inLanguage l) d t) (classDeclaration s d t) := by
  refine .read (className s d t) fun name => .ite .nothing ?_
  exact (Relabelled.gather fun m _ => method_inLanguage name _ m).after rfl

theorem variableFunctions_inLanguage (t : Tree) :
    Relabelled l (variableFunctions (s.inLanguage l) d t) (variableFunctions s d t) := by
  refine .gather fun c _ => .ite .nothing ?_
  cases c.child? "identifier" with
  | none => exact .nothing
  | some nameTree =>
    cases (c.child? "arrow_function").or (c.child? "function_expression") with
    | none => exact .nothing
    | some decl => exact .ite .nothing (.read (s.parsed.text nameTree) fun name =>
        functionAt_inLanguage name t decl)

theorem exportAssignment_inLanguage (t : Tree) :
    Relabelled l (exportAssignment (s.inLanguage l) d t) (exportAssignment s d t) := by
  unfold exportAssignment
  cases t.child? "assignment_expression" with
  | none => exact .nothing
  | some assign =>
    dsimp only
    cases assign.children.head? with
    | none => exact .nothing
    | some left =>
      refine .read (s.parsed.text left) fun target => ?_
      cases exportedName target with
      | none => exact .nothing
      | some exported =>
        cases assign.children.find? fun c => ["arrow_function", "function_expression",
          "function"].contains c.kind with
        | none => exact .nothing
        | some decl =>
          exact .read (s.parsed.childText? decl "identifier") fun own => functionAt_inLanguage _ t
            decl

theorem declaration_inLanguage (t : Tree) :
    Relabelled l (declaration (s.inLanguage l) d t) (declaration s d t) := by
  unfold declaration
  split
  · exact functionDeclaration_inLanguage t
  · exact classDeclaration_inLanguage t
  · exact variableFunctions_inLanguage t
  · exact variableFunctions_inLanguage t
  · exact .ite (.read (s.parsed.childText t "type_identifier") fun name => .ite .nothing rfl)
      .nothing
  · exact .ite (.read (s.parsed.childText t "identifier") fun name => .ite .nothing rfl) .nothing
  · exact .nothing

theorem importStatement_inLanguage (t : Tree) :
    Relabelled l (importStatement (s.inLanguage l) d t) (importStatement s d t) := by
  refine .read (s.parsed.childText? t "string") fun raw? => ?_
  cases raw? with
  | none => exact .nothing
  | some raw =>
    dsimp only
    cases t.child? "import_clause" with
    | none => exact .read (.ok []) fun names => rfl
    | some clause => exact .read (importedNames s d clause) fun names => rfl

theorem statement_inLanguage (t : Tree) :
    Relabelled l (statement (s.inLanguage l) d t) (statement s d t) := by
  unfold statement
  split
  · exact importStatement_inLanguage t
  · exact .gather fun c _ => declaration_inLanguage c
  · exact exportAssignment_inLanguage t
  · exact declaration_inLanguage t

/-- The language of a site shows in the nodes alone, for every tree and in both dialects. -/
theorem extract_inLanguage (d : Dialect) (s : Site) (l : String) :
    Relabelled l (extract d (s.inLanguage l)) (extract d s) :=
  (Relabelled.gather fun t _ => statement_inLanguage t).emit fun e => .withComments ["comment"] e

/-! ## Trees without types

The typed dialect asks for tree nodes of further kinds, and finds none of them here. -/

/-- The kinds of tree nodes that only the typed dialect looks at. -/
def typedKinds : List String :=
  ["type_annotation", "accessibility_modifier", "type_identifier", "interface_declaration",
    "enum_declaration"]

/-- Nothing in the tree is said about types, and no import has a default. -/
def Untyped (t : Tree) : Prop :=
  ∀ u ∈ t.preorder, u.kind ∉ typedKinds ∧ (u.kind = "import_clause" → u.child? "identifier" = none)

instance (t : Tree) : Decidable (Untyped t) :=
  inferInstanceAs (Decidable (∀ u ∈ t.preorder, _ ∧ (_ → _ = none)))

namespace Untyped

variable {c : Tree} {kind : String}

theorem below (ht : Untyped t) (hc : c ∈ t.children) : Untyped c :=
  fun u hu => ht u (Tree.mem_preorder_of_mem_children hc hu)

theorem child (ht : Untyped t) (hc : t.child? kind = some c) : Untyped c :=
  ht.below (Tree.child?_mem hc)

theorem kind_ne (ht : Untyped t) (hc : c ∈ t.children) (hkind : kind ∈ typedKinds) :
    c.kind ≠ kind := by
  rintro rfl
  exact (ht.below hc c (Tree.self_mem_preorder c)).1 hkind

theorem child?_eq_none (ht : Untyped t) (hkind : kind ∈ typedKinds) : t.child? kind = none := by
  refine find?_eq_none.2 fun c hc => ?_
  rw [beq_iff_eq]
  exact ht.kind_ne hc hkind

end Untyped

theorem annotatedType_typed (ht : Untyped t) :
    annotatedType s .typed t = annotatedType s .plain t := by
  have hnone : (t.children.filter fun c => c.kind == "type_annotation") = [] := by
    refine filter_eq_nil_iff.2 fun c hc => ?_
    rw [beq_iff_eq]
    exact ht.kind_ne hc (by decide)
  unfold annotatedType
  rw [hnone]
  rfl

theorem functionAt_typed (name : String) (t : Tree) {decl : Tree} (hdecl : Untyped decl) :
    functionAt s .typed name t decl = functionAt s .plain name t decl := by
  unfold functionAt
  rw [annotatedType_typed hdecl]

theorem functionDeclaration_typed (ht : Untyped t) :
    functionDeclaration s .typed t = functionDeclaration s .plain t := by
  unfold functionDeclaration
  simp only [functionAt_typed _ t ht]

theorem accessModifier_typed {children : List Tree} (h : ∀ c ∈ children,
    c.kind ≠ "accessibility_modifier") (found : Option String) :
    accessModifier s .typed children found = accessModifier s .plain children found := by
  induction children with
  | nil => rfl
  | cons c rest ih =>
    have hc : (c.kind == "accessibility_modifier") = false := beq_false_of_ne (h c mem_cons_self)
    rw [accessModifier, accessModifier, hc, Bool.and_false, Bool.and_false]
    exact ih fun c' hc' => h c' (mem_cons_of_mem c hc')

theorem method_typed (className classId : String) (ht : Untyped t) :
    method s .typed className classId t = method s .plain className classId t := by
  unfold method
  rw [annotatedType_typed ht, accessModifier_typed fun c hc => ht.kind_ne hc (by decide)]

theorem className_typed (ht : Untyped t) : className s .typed t = className s .plain t := by
  have hname : s.parsed.childText t "type_identifier" = .ok "" := by
    rw [Source.Parsed.childText, ht.child?_eq_none (by decide)]
  unfold className
  rw [hname]
  rfl

theorem gather_congr {emit' emit : α → Reads Emission} {items : List α}
    (h : ∀ a ∈ items, emit' a = emit a) :
    Emission.gather emit' items = Emission.gather emit items := by
  induction items with
  | nil => rfl
  | cons a rest ih =>
    rw [Emission.gather, Emission.gather, h a mem_cons_self,
      ih fun b hb => h b (mem_cons_of_mem a hb)]

theorem classDeclaration_typed (ht : Untyped t) :
    classDeclaration s .typed t = classDeclaration s .plain t := by
  unfold classDeclaration
  rw [className_typed ht]
  apply bind_congr
  intro name
  cases hbody : t.child? "class_body" with
  | none => rfl
  | some body =>
    have hmethods (classId : String) (m : Tree) (hm : m ∈ body.children.filter fun m => m.kind ==
        "method_definition") :=
      method_typed (s := s) name classId ((ht.child hbody).below (mem_filter.1 hm).1)
    simp only [gather_congr (hmethods _)]

theorem variableFunctions_typed (ht : Untyped t) :
    variableFunctions s .typed t = variableFunctions s .plain t := by
  refine gather_congr fun c hc => ?_
  cases c.child? "identifier" with
  | none => rfl
  | some nameTree =>
    cases hdecl : (c.child? "arrow_function").or (c.child? "function_expression") with
    | none => rfl
    | some decl =>
      have huntyped : Untyped decl := by
        rcases Option.or_eq_some_iff.1 hdecl with harrow | ⟨-, hexpression⟩
        · exact (ht.below hc).child harrow
        · exact (ht.below hc).child hexpression
      simp only [functionAt_typed _ t huntyped]

theorem exportAssignment_typed (ht : Untyped t) :
    exportAssignment s .typed t = exportAssignment s .plain t := by
  unfold exportAssignment
  cases hassign : t.child? "assignment_expression" with
  | none => rfl
  | some assign =>
    dsimp only
    cases assign.children.head? with
    | none => rfl
    | some left =>
      apply bind_congr
      intro target
      cases exportedName target with
      | none => rfl
      | some exported =>
        dsimp only
        cases hdecl : assign.children.find? fun c =>
            ["arrow_function", "function_expression", "function"].contains c.kind with
        | none => rfl
        | some decl =>
          have huntyped : Untyped decl := (ht.child hassign).below (mem_of_find?_eq_some hdecl)
          simp only [functionAt_typed _ t huntyped]

theorem declaration_typed (ht : Untyped t) : declaration s .typed t = declaration s .plain t := by
  have hkind := (ht t (Tree.self_mem_preorder t)).1
  unfold declaration
  split
  · exact functionDeclaration_typed ht
  · exact classDeclaration_typed ht
  · exact variableFunctions_typed ht
  · exact variableFunctions_typed ht
  · next h => exact absurd (h ▸ hkind) (by decide)
  · next h => exact absurd (h ▸ hkind) (by decide)
  · rfl

theorem importedNames_typed {clause : Tree} (hkind : clause.kind = "import_clause")
    (hclause : Untyped clause) : importedNames s .typed clause = importedNames s .plain clause := by
  have hdefault : s.parsed.childText? clause "identifier" = .ok none := by
    rw [Source.Parsed.childText?, (hclause clause (Tree.self_mem_preorder clause)).2 hkind]
  have hnames (named : List String) : (pure (named ++ []) : Reads (List String)) = pure named := by
    rw [append_nil]
  unfold importedNames
  rw [hdefault]
  cases clause.child? "named_imports" with
  | none => exact bind_congr hnames
  | some list => exact bind_congr hnames

theorem importStatement_typed (ht : Untyped t) :
    importStatement s .typed t = importStatement s .plain t := by
  unfold importStatement
  cases hclause : t.child? "import_clause" with
  | none => rfl
  | some clause =>
    have hkind : clause.kind = "import_clause" :=
      eq_of_beq (find?_some (p := fun c : Tree => c.kind == _) hclause)
    simp only [importedNames_typed hkind (ht.child hclause)]

theorem statement_typed (ht : Untyped t) : statement s .typed t = statement s .plain t := by
  unfold statement
  split
  · exact importStatement_typed ht
  · exact gather_congr fun c hc => declaration_typed (ht.below hc)
  · exact exportAssignment_typed ht
  · exact declaration_typed ht

/-- On trees in which nothing is said about types, the typed dialect reads what the plain one reads.
-/
theorem extract_typed (hs : Untyped s.parsed.root) : extract .typed s = extract .plain s := by
  unfold extract
  rw [gather_congr fun t ht => statement_typed (hs.below ht)]

end Script

end Extract

open Extract (Emission)

/-- **JavaScript and TypeScript agree where there are no types.** On a tree without type
annotations, access modifiers, type names, interfaces, enumerations and default imports, a file
gives in TypeScript what it gives in JavaScript: the same edges and the same nodes in the same
order, whose language is TypeScript where it was JavaScript, or the same fault. -/
theorem extract_typescript_eq (file : String) {parsed : Source.Parsed}
    (huntyped : Extract.Script.Untyped parsed.root) :
    Language.typescript.extract file parsed =
        Emission.inLanguage "typescript" <$> Language.javascript.extract file parsed ∧
      ∀ e, Language.javascript.extract file parsed = .ok e → ∀ n ∈ e.nodes,
        n.language = "javascript" := by
  let site : Extract.Site := ⟨file, "javascript", parsed⟩
  constructor
  · show Extract.Script.extract .typed (site.inLanguage "typescript") = _
    rw [Extract.Script.extract_typed (s := site.inLanguage "typescript") huntyped]
    exact Extract.Script.extract_inLanguage .plain site "typescript"
  · intro e he n hn
    -- read in its own language once more, nothing changes
    have hsame : (.ok e : Extract.Reads Emission) = .ok (e.inLanguage "javascript") := by
      have hrelabelled := Extract.Script.extract_inLanguage .plain site "javascript"
      rwa [Extract.Relabelled, show site.inLanguage "javascript" = site from rfl,
        show Extract.Script.extract .plain site = .ok e from he] at hrelabelled
    have hnodes : e.nodes = e.nodes.map (·.inLanguage "javascript") :=
      congrArg Emission.nodes (Except.ok.inj hsame)
    rw [hnodes] at hn
    obtain ⟨m, -, rfl⟩ := mem_map.1 hn
    rfl

def requestingClass : Source.Parsed where
  bytes := Text.Utf8.encode "class A\x7bm()\x7bfetch('/x')\x7d\x7d"
  root := .node "program" 0 25 [.node "class_declaration" 0 25 [.node "identifier" 6 7 [],
    .node "class_body" 7 25 [
      .node "method_definition" 8 24 [.node "property_identifier" 8 9 [],
        .node "formal_parameters" 9 11 [],
        .node "statement_block" 11 24 [.node "call_expression" 12 23 [.node "identifier" 12 17 [],
          .node "arguments" 17 23 [.node "string" 18 22 []]]]]]]]

theorem extract_typescript_eq_requestingClass :
    Extract.Script.Untyped requestingClass.root ∧
      ∃ e, Language.javascript.extract "a" requestingClass = .ok e ∧
        Language.typescript.extract "a" requestingClass = .ok (e.inLanguage "typescript") ∧
        e.nodes.map (fun n => (n.name, n.language)) =
          [("A", "javascript"), ("A.m", "javascript"), ("/x", "javascript")] ∧
        e.edges.map (·.relation) = [.defines, .calls, .networksTo] := by
  have huntyped : Extract.Script.Untyped requestingClass.root := by decide
  have hread : (Language.javascript.extract "a" requestingClass).toOption.map (fun e =>
      (e.nodes.map (fun n => (n.name, n.language)), e.edges.map (·.relation))) =
        some ([("A", "javascript"), ("A.m", "javascript"), ("/x", "javascript")],
          [.defines, .calls, .networksTo]) := by
    decide +kernel
  obtain ⟨hsame, -⟩ := extract_typescript_eq "a" huntyped
  cases he : Language.javascript.extract "a" requestingClass with
  | error fault =>
    rw [he] at hread
    cases hread
  | ok e =>
    rw [he] at hread hsame
    obtain ⟨hnodes, hedges⟩ := Prod.mk.inj (Option.some.inj hread)
    exact ⟨huntyped, e, rfl, hsame, hnodes, hedges⟩

end CodeAtlas
