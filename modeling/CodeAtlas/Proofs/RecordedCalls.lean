import Mathlib.Data.List.Forall2
import CodeAtlas.Proofs.Closure
import CodeAtlas.Proofs.Routines

/-!
# The calls that are recorded

Whenever the symbols of a file can be read at all, the functions and methods among them are its
routines, and the call edges are the calls in the bodies of the routines, one for one and in order.

* **`Shows`** — the account of an emission: the routines that its nodes stand for, and its calls.
  Accounts are added up as emissions are appended (`Shows.append`).
* **`Lists`** — an emission that shows some routines together with all calls in their bodies. It is
  what every reader of a declaration ensures.

A reader stops at the first text that it cannot read, so in a run that ended every text it needed
was there. Each proof therefore keeps the result of a reading (`Ensures.read`).
-/

namespace CodeAtlas.Extract

open List
open Source (Tree Parsed)

@[simp] theorem orEmpty_ok (text : String) : orEmpty (.ok text) = text := rfl

/-! ## Accounts

Routines and calls are counted together as emissions are appended. -/

def isRoutine (n : Node) : Bool :=
  n.kind == .function || n.kind == .method

structure Routine.Stands (s : Site) (r : Routine) (n : Node) : Prop where
  kind : n.kind = r.kind
  name : n.name = r.name
  id : n.id = r.id
  loc : n.loc = s.locate r.place

theorem stands_symbol (s : Site) (kind : NodeKind) (name : String) (t : Tree) (traits : Traits)
    (summary : String) (bodies : List Tree) :
    (s.routine kind name t bodies).Stands s (s.symbol kind name t traits summary) :=
  ⟨rfl, rfl, rfl, rfl⟩

/-- The account of an emission: the routines that its nodes stand for, and its calls. Accounts are
added up as emissions are appended (`Shows.append`). -/
structure Shows (s : Site) (rs : List Routine) (calls : List Edge) (e : Emission) : Prop where
  nodes : List.Forall₂ (Routine.Stands s) rs (e.nodes.filter isRoutine)
  calls : callEdgesOf e.edges = calls

variable {a b e : Emission} {α : Type} {emit : α → Reads Emission} {items : List α}

namespace Shows

variable {s : Site} {rs rs' : List Routine} {calls calls' : List Edge}

theorem nil : Shows s [] [] {} :=
  ⟨.nil, rfl⟩

theorem append (ha : Shows s rs calls a) (hb : Shows s rs' calls' b) :
    Shows s (rs ++ rs') (calls ++ calls') (a ++ b) := by
  constructor
  · rw [Emission.append_nodes, filter_append]
    exact rel_append ha.nodes hb.nodes
  · rw [callEdgesOf, Emission.append_edges, filter_append]
    exact congrArg₂ _ ha.calls hb.calls

theorem append_other (ha : Shows s rs calls a) (hb : Shows s [] [] b) :
    Shows s rs calls (a ++ b) := by
  simpa using ha.append hb

theorem append_calls (ha : Shows s rs calls a) (hb : Shows s [] calls' b) :
    Shows s rs (calls ++ calls') (a ++ b) := by
  simpa using ha.append hb

theorem other {nodes : List Node} {edges : List Edge} (hnodes : ∀ n ∈ nodes, isRoutine n = false)
    (hedges : ∀ d ∈ edges, d.relation ≠ .calls) : Shows s [] [] ⟨nodes, edges⟩ := by
  have hnone : nodes.filter isRoutine = [] := filter_eq_nil_iff.2 fun n hn => by simp [hnodes n hn]
  refine ⟨?_, filter_eq_nil_iff.2 fun d hd => by simpa using hedges d hd⟩
  rw [hnone]
  exact .nil

theorem ofNode {n : Node} (hn : isRoutine n = false) : Shows s [] [] (.ofNode n) :=
  other (by simpa using hn) (by simp)

theorem ofImport {target context : String} :
    Shows s [] [] (.ofEdge (s.importEdge target context)) :=
  other (by simp) (by simp [Site.importEdge])

theorem ofCall {source callee context : String} :
    Shows s [] [callEdge source callee context] (.ofEdge (callEdge source callee context)) :=
  ⟨.nil, rfl⟩

theorem ofRoutine {r : Routine} {n : Node} {edges : List Edge} (hn : isRoutine n)
    (hr : r.Stands s n)
    (hedges : ∀ d ∈ edges, d.relation = .defines) : Shows s [r] [] ⟨[n], edges⟩ := by
  refine ⟨?_, filter_eq_nil_iff.2 fun d hd => by simp [hedges d hd]⟩
  rw [filter_cons_of_pos hn]
  exact .cons hr .nil

theorem routeEmission (owner : String) (t : Tree) (route : Option String) :
    Shows s [] [] (routeEmission s owner t route) := by
  cases route with
  | none => exact nil
  | some route =>
    refine other (fun n hn => ?_) (fun d hd => ?_)
    · rw [mem_singleton.1 hn]
      rfl
    · rw [mem_singleton.1 hd]
      exact fun h => by cases h

theorem gather (routinesOf : α → List Routine) {callsOf : α → List Edge}
    (h : ∀ a ∈ items, Ensures (emit a) (Shows s (routinesOf a) (callsOf a))) :
    Ensures (Emission.gather emit items)
      (Shows s (items.flatMap routinesOf) (items.flatMap callsOf)) := by
  induction items with
  | nil => exact .ok nil
  | cons a rest ih =>
    refine .bind (h a mem_cons_self) fun first hfirst => ?_
    refine .bind (ih fun b hb => h b (mem_cons_of_mem a hb)) fun others hothers => .pure ?_
    exact hfirst.append hothers

theorem walkBody {emit : Tree → Reads Emission} {record : Tree → Option Edge}
    (h : ∀ t, Ensures (emit t) (Shows s [] (record t).toList)) (body : Option Tree) :
    Ensures (walkBody emit body)
      (Shows s [] (body.toList.flatMap fun b => b.preorder.filterMap record)) := by
  cases body with
  | none => exact .ok nil
  | some b =>
    have hnone : b.preorder.flatMap (fun _ => ([] : List Routine)) = [] :=
      flatMap_eq_nil_iff.2 fun _ _ => rfl
    have hgather := gather (fun _ => []) fun t (_ : t ∈ b.preorder) => h t
    rw [hnone] at hgather
    simpa [Extract.walkBody, filterMap_eq_flatMap_toList] using hgather

theorem withComments {kinds : List String} (he : Shows s rs calls e) :
    Ensures (withComments s kinds e) (Shows s rs calls) := by
  intro e' hrun
  obtain ⟨found, hfound, rfl⟩ := ensures_withComments s kinds e e' hrun
  have hother : ∀ n ∈ found, isRoutine n = false := fun n hn => by simp [isRoutine, hfound n hn]
  have hboth := he.append (other hother (by simp : ∀ d ∈ ([] : List Edge), d.relation ≠ .calls))
  simpa using hboth

end Shows

/-- An emission that shows some routines together with all calls in their bodies. It is what every
reader of a declaration ensures. -/
def Lists (l : Language) (s : Site) (rs : List Routine) : Emission → Prop :=
  Shows s rs (rs.flatMap (l.callsIn s))

namespace Lists

variable {l : Language} {s : Site} {rs rs' : List Routine}

theorem nil : Lists l s [] {} :=
  Shows.nil

theorem none (he : Shows s [] [] e) : Lists l s [] e :=
  he

theorem append (ha : Lists l s rs a) (hb : Lists l s rs' b) : Lists l s (rs ++ rs') (a ++ b) := by
  have hboth := Shows.append ha hb
  rwa [← flatMap_append] at hboth

theorem gather (routinesOf : α → List Routine) (h : ∀ a ∈ items,
    Ensures (emit a) (Lists l s (routinesOf a))) :
    Ensures (Emission.gather emit items) (Lists l s (items.flatMap routinesOf)) := by
  have hgather := Shows.gather routinesOf h
  rwa [← flatMap_assoc] at hgather

theorem gather_nil (h : ∀ a ∈ items, Ensures (emit a) (Lists l s [])) :
    Ensures (Emission.gather emit items) (Lists l s []) := by
  have hgather := gather (fun _ => []) h
  rwa [flatMap_eq_nil_iff.2 fun _ _ => rfl] at hgather

/-- A routine, and what is read behind its node: the calls in its bodies. -/
theorem routine {r : Routine} (he : Shows s [r] (l.callsIn s r) e) : Lists l s [r] e := by
  rw [Lists, flatMap_singleton]
  exact he

/-- A class is no routine; its routines are those of its members. -/
theorem ofClass {front : Emission} {emit : Tree → Reads Emission} {routinesOf : Tree → List Routine}
    {members listed : List Tree} (hfront : Shows s [] [] front)
    (h : ∀ m, Ensures (emit m) (Lists l s (routinesOf m))) (hmembers : members = listed) :
    Ensures (Emission.gather emit members >>= fun methods => Pure.pure (front ++ methods))
      (Lists l s (listed.flatMap routinesOf)) := by
  subst hmembers
  exact .bind (gather routinesOf fun m _ => h m) fun _ hmethods =>
    .pure ((none hfront).append hmethods)

theorem next {first rest : Reads Emission} (hfirst : Ensures first (Lists l s rs))
    (hrest : Ensures rest (Lists l s rs')) :
    Ensures (first >>= fun a => rest >>= fun b => Pure.pure (a ++ b)) (Lists l s (rs ++ rs')) :=
  .bind hfirst fun _ ha => .bind hrest fun _ hb => .pure (ha.append hb)

end Lists

/-- A reader of a declaration reads the name first and stops if there is none. -/
theorem Lists.named {l : Language} {s : Site} {rs : List Routine} {name : Reads String}
    {f : String → Reads Emission} (h : Ensures (f (orEmpty name)) (Lists l s rs)) :
    Ensures (name >>= fun n => if n.isEmpty then Pure.pure {} else f n)
      (Lists l s (unlessEmpty (orEmpty name) rs)) := by
  refine .read fun n hn => ?_
  rw [hn, orEmpty_ok] at h
  rw [unlessEmpty, hn, orEmpty_ok]
  split
  · exact .pure .nil
  · exact h

theorem Lists.named_other {l : Language} {s : Site} {name : Reads String} {symbol : String → Node}
    (hsymbol : ∀ n, isRoutine (symbol n) = false) :
    Ensures (name >>= fun n => if n.isEmpty then Pure.pure {} else Pure.pure (.ofNode (symbol n)))
      (Lists l s []) := by
  exact .named .nil fun n => .pure (.none (.ofNode (hsymbol n)))

section Calls

variable {s : Site} {source : String} {t c : Tree} {kind text : String}

theorem headText_eq (hkind : (t.kind == kind)) (hhead : t.children.head? = some c)
    (htext : s.parsed.text c = .ok text) : headText kind s t = text := by
  simp [headText, hkind, hhead, htext]

theorem headText_of_kind (hkind : ¬ (t.kind == kind)) : headText kind s t = "" :=
  if_neg hkind

theorem headText_of_no_child (hhead : t.children.head? = none) : headText kind s t = "" := by
  simp [headText, hhead]

theorem recordedCall?_of_empty {l : Language} (hcalled : l.calledText s t = "") :
    l.recordedCall? s source t = none := by
  rw [Language.recordedCall?, hcalled]
  rfl

theorem shows_no_call {l : Language} (hcalled : l.calledText s t = "") :
    Shows s [] (l.recordedCall? s source t).toList {} := by
  rw [recordedCall?_of_empty hcalled]
  exact .nil

theorem shows_callAt {l : Language} (hl : l ≠ .php) (hcalled : l.calledText s t = text) :
    Ensures (callAt s source t text) (Shows s [] (l.recordedCall? s source t).toList) := by
  rw [Language.recordedCall?, hcalled, callAt]
  cases hcallee : resolveCallee text with
  | none => exact .ok .nil
  | some callee =>
    have hkept : l.keptText s t callee =
        Text.cut contextLength (if s.parsed.isEmpty t then callee
          else orEmpty (s.parsed.text t)) := by
      cases l with
      | php => exact absurd rfl hl
      | _ => rfl
    dsimp only [Option.map_some, Option.toList_some]
    rw [hkept]
    split
    · exact .pure .ofCall
    · refine .read fun whole hwhole => .pure ?_
      rw [hwhole]
      exact .ofCall

theorem shows_callOfKind {l : Language} (hl : l ≠ .php)
    (hkinds : ∀ t, l.calledText s t = headText kind s t) (source : String) (t : Tree) :
    Ensures (callOfKind kind s source t) (Shows s [] (l.recordedCall? s source t).toList) := by
  unfold callOfKind
  split
  · next hkind =>
    split
    · next callee hhead =>
      exact .read fun text htext => shows_callAt hl ((hkinds t).trans
        (headText_eq hkind hhead htext))
    · next hhead => exact .pure (shows_no_call ((hkinds t).trans (headText_of_no_child hhead)))
  · next hkind => exact .pure (shows_no_call ((hkinds t).trans (headText_of_kind hkind)))

/-- The endpoint that a call addresses, if it makes a request, is read behind the call and is not
counted. -/
theorem shows_callEmission {l : Language} (f : RequestForm) (hl : l ≠ .php)
    (hkinds : ∀ t, l.calledText s t = headText "call_expression" s t) (source : String) (t : Tree) :
    Ensures (f.callEmission s source t) (Shows s [] (l.recordedCall? s source t).toList) := by
  have hrequest (calleeText : String) :
      Ensures (f.requestEmission s source t calleeText) (Shows s [] []) := by
    unfold RequestForm.requestEmission
    split
    · exact .pure .nil
    · refine .after fun text => ?_
      dsimp only
      split
      · exact .pure .nil
      · exact .pure (.other (by simp [isRoutine, Site.requestEndpoint]) (by simp))
  unfold RequestForm.callEmission
  split
  · next hkind =>
    split
    · next callee hhead =>
      refine .read fun text htext => ?_
      refine .bind (shows_callAt hl ((hkinds t).trans (headText_eq hkind hhead htext))) fun call
        hcall => ?_
      dsimp only
      split
      · exact .bind (hrequest text) fun b hb => .pure (hcall.append_other hb)
      · exact .pure (hcall.append_other .nil)
    · next hhead => exact .pure (shows_no_call ((hkinds t).trans (headText_of_no_child hhead)))
  · next hkind => exact .pure (shows_no_call ((hkinds t).trans (headText_of_kind hkind)))

/-- A routine is emitted with what defines it, then come the calls in its body. -/
theorem lists_routine {l : Language} {emit : Site → String → Tree → Reads Emission}
    (h : ∀ source t, Ensures (emit s source t) (Shows s [] (l.recordedCall? s source t).toList))
    {kind : NodeKind}
    {name summary : String} {place : Tree} {traits : Traits} {edges : List Edge}
    {body : Option Tree} (hkind : isRoutine (s.symbol kind name place traits summary))
    (hedges : ∀ d ∈ edges, d.relation = .defines) :
    Ensures (walkBody (emit s (s.symbol kind name place traits summary).id) body >>= fun calls =>
      Pure.pure (⟨[s.symbol kind name place traits summary], edges⟩ ++ calls))
      (Lists l s [s.routine kind name place body.toList]) := by
  refine .bind (Shows.walkBody (h (s.idOf name)) body) fun calls hcalls => .pure (.routine ?_)
  exact (Shows.ofRoutine hkind (stands_symbol s kind name place traits summary _)
    hedges).append_calls hcalls

end Calls

variable {s : Site}

namespace Python

theorem shows_callEdges (source : String) (t : Tree) :
    Ensures (callEdges s source t) (Shows s [] (Language.python.recordedCall? s source t).toList) :=
  shows_callOfKind (by decide) (fun _ => rfl) source t

theorem lists_function (route : Option String) (t : Tree) :
    Ensures (function s route t) (Lists .python s (functionRoutines s t)) := by
  refine Lists.named ?_
  generalize orEmpty _ = name
  refine .after fun parameters => .after fun returns => ?_
  refine .bind (Shows.walkBody (shows_callEdges (s.idOf name)) _) fun calls hcalls =>
    .pure (.routine ?_)
  refine Shows.append_other (Shows.append_calls (.ofRoutine rfl (stands_symbol s _ name t _ _ _) ?_)
    hcalls) (.routeEmission _ t _)
  simp

theorem lists_method (className classId : String) (t : Tree) :
    Ensures (method s className classId t) (Lists .python s (methodRoutines s className t)) := by
  refine Lists.named ?_
  refine .after fun parameters => .after fun returns => ?_
  exact lists_routine shows_callEdges rfl (by simp [definesEdge])

theorem lists_classDefinition (t : Tree) :
    Ensures (classDefinition s t) (Lists .python s (classRoutines s t)) := by
  refine Lists.named (.ofClass (.ofNode rfl) (lists_method _ _) ?_)
  cases t.child? "block" <;> simp

theorem lists_importStatement (t : Tree) : Ensures (importStatement s t) (Lists .python s []) := by
  refine Lists.gather_nil fun c _ => ?_
  split
  · exact .named .nil fun name => .pure (.none .ofImport)
  · exact .pure .nil

theorem lists_fromImport (t : Tree) : Ensures (fromImport s t) (Lists .python s []) := by
  unfold fromImport
  refine .after fun parts => ?_
  dsimp only
  split
  · exact .pure .nil
  · exact .pure (.none .ofImport)

theorem lists_statement (t : Tree) :
    Ensures (statement s t) (Lists .python s (statementRoutines s t)) := by
  unfold statement statementRoutines
  generalize t.kind = kind
  split
  · exact lists_importStatement t
  · exact lists_fromImport t
  · exact lists_classDefinition t
  · exact lists_function none t
  · -- the decorators give the route, and what they decorate is a function or else a class
    refine .after fun route => ?_
    cases t.child? "function_definition" with
    | some f => exact lists_function route f
    | none =>
      cases t.child? "class_definition" with
      | some c => exact lists_classDefinition c
      | none => exact .pure .nil
  · next hclass hfunction hdecorated =>
    split
    · exact absurd rfl hclass
    · exact absurd rfl hfunction
    · exact absurd rfl hdecorated
    · exact .ok .nil

theorem lists_extract : Ensures (extract s) (Lists .python s (routines s)) :=
  .keep (Lists.gather _ fun t _ => lists_statement t) fun _ he => Shows.withComments he

end Python

namespace Php

theorem shows_callEdges (source : String) (t : Tree) :
    Ensures (callEdges s source t) (Shows s [] (Language.php.recordedCall? s source t).toList) := by
  unfold callEdges
  refine .read fun called hcalled => ?_
  rw [Language.recordedCall?, Language.calledText, hcalled, orEmpty_ok]
  cases resolveCallee called with
  | none => exact .pure .nil
  | some callee =>
    refine .read fun text htext => .pure ?_
    have hkept : Language.php.keptText s t callee = if text.isEmpty then callee
        else Text.cut contextLength text := by
      rw [Language.keptText, htext, orEmpty_ok]
    dsimp only [Option.map_some, Option.toList_some]
    rw [hkept]
    exact .ofCall

theorem lists_function (namespaceName : String) (t : Tree) :
    Ensures (function s namespaceName t) (Lists .php s (functionRoutines s namespaceName t)) := by
  refine Lists.named ?_
  refine .after fun parameters => .after fun returns => ?_
  exact lists_routine shows_callEdges rfl (by simp)

theorem lists_method (className classId : String) (t : Tree) :
    Ensures (method s className classId t) (Lists .php s (methodRoutines s className t)) := by
  refine Lists.named ?_
  generalize orEmpty _ = name
  refine .after fun visible => .after fun parameters => .after fun returns => .after fun route => ?_
  refine .bind (Shows.walkBody (shows_callEdges (s.idOf (className ++ "::" ++ name))) _)
    fun calls hcalls => .pure (.routine ?_)
  refine Shows.append_calls (Shows.append_other (.ofRoutine rfl
    (stands_symbol s _ (className ++ "::" ++ name) t _ _ _) ?_) (.routeEmission _ t _)) hcalls
  simp [definesEdge]

theorem lists_classDeclaration (namespaceName : String) (t : Tree) :
    Ensures (classDeclaration s namespaceName t)
      (Lists .php s (classRoutines s namespaceName t)) := by
  refine Lists.named (.after fun route => ?_)
  refine Lists.ofClass (.append_other (.ofNode rfl) (.routeEmission _ t _)) (lists_method _ _) ?_
  cases t.child? "declaration_list" <;> simp

theorem lists_useDeclaration (t : Tree) : Ensures (useDeclaration s t) (Lists .php s []) := by
  unfold useDeclaration
  exact .named .nil fun imported => .pure (.none .ofImport)

/-- The namespace changes on the way, so the induction is for all of them. -/
theorem lists_statements (ts : List Tree) (namespaceName : String) :
    Ensures (statements s namespaceName ts)
      (Lists .php s (statementsRoutines s namespaceName ts)) := by
  induction ts generalizing namespaceName with
  | nil => exact .ok .nil
  | cons t rest ih =>
    rw [statements, statementsRoutines]
    generalize t.kind = kind
    by_cases hnamespace : kind = "namespace_definition"
    · subst hnamespace
      refine .read fun name hname => ?_
      rw [hname]
      exact ih name
    · rw [if_neg (by simpa using hnamespace)]
      dsimp only
      split
      · exact Lists.next (lists_useDeclaration t) (ih namespaceName)
      · exact Lists.next (lists_classDeclaration namespaceName t) (ih namespaceName)
      · exact Lists.next (lists_function namespaceName t) (ih namespaceName)
      · next hclass hfunction =>
        split
        · exact absurd rfl hnamespace
        · exact absurd rfl hclass
        · exact absurd rfl hfunction
        · exact Lists.next (.ok .nil) (ih namespaceName)

theorem lists_extract : Ensures (extract s) (Lists .php s (routines s)) :=
  .keep (lists_statements _ "") fun _ he => Shows.withComments he

end Php

namespace Script

def Dialect.language : Dialect → Language
  | .plain => .javascript
  | .typed => .typescript

variable {d : Dialect}

theorem calledText_language (d : Dialect) (t : Tree) :
    d.language.calledText s t = headText "call_expression" s t := by
  cases d <;> rfl

theorem Dialect.shows_callEmission (d : Dialect) (source : String) (t : Tree) :
    Ensures (callEmission s source t) (Shows s [] (d.language.recordedCall? s source t).toList) :=
  Extract.shows_callEmission requests (by cases d <;> decide) (calledText_language d) source t

theorem lists_functionAt (name : String) (t decl : Tree) :
    Ensures (functionAt s d name t decl) (Lists d.language s [functionRoutine s name t decl]) := by
  unfold functionAt
  refine .after fun parameters => .after fun returns => ?_
  exact lists_routine d.shows_callEmission rfl (by simp)

theorem lists_method (className classId : String) (t : Tree) :
    Ensures (method s d className classId t)
      (Lists d.language s (methodRoutines s className t)) := by
  refine Lists.named ?_
  refine .after fun parameters => .after fun returns => .after fun visibility => ?_
  exact lists_routine d.shows_callEmission rfl (by simp [definesEdge])

theorem lists_classDeclaration (t : Tree) :
    Ensures (classDeclaration s d t) (Lists d.language s (classRoutines s d t)) := by
  refine Lists.named (.ofClass (.ofNode rfl) (lists_method _ _) ?_)
  cases t.child? "class_body" <;> simp

theorem lists_variableFunctions (t : Tree) :
    Ensures (variableFunctions s d t)
      (Lists d.language s (t.children.flatMap (variableRoutines s t))) := by
  refine Lists.gather _ fun c _ => ?_
  unfold variableRoutines
  split
  · exact .pure .nil
  · cases c.child? "identifier" with
    | none => exact .pure .nil
    | some nameTree =>
      cases (c.child? "arrow_function").or (c.child? "function_expression") with
      | none => exact .pure .nil
      | some decl =>
        dsimp only
        split
        · exact .pure .nil
        · refine .read fun name hname => ?_
          rw [hname]
          exact lists_functionAt name t decl

theorem lists_exportAssignment (t : Tree) :
    Ensures (exportAssignment s d t) (Lists d.language s (exportRoutines s t)) := by
  unfold exportAssignment exportRoutines
  cases t.child? "assignment_expression" with
  | none => exact .pure .nil
  | some assign =>
    dsimp only
    cases assign.children.head? with
    | none => exact .pure .nil
    | some left =>
      refine .read fun target htarget => ?_
      dsimp only
      rw [htarget, orEmpty_ok]
      cases exportedName target with
      | none => exact .pure .nil
      | some exported =>
        dsimp only
        cases assign.children.find? fun c => ["arrow_function", "function_expression",
          "function"].contains c.kind with
        | none => exact .pure .nil
        | some decl =>
          refine .read fun own hown => ?_
          have hname : ownName? s decl = own := by
            rw [ownName?, hown]
            rfl
          dsimp only
          rw [hname]
          exact lists_functionAt _ t decl

theorem lists_importStatement (t : Tree) :
    Ensures (importStatement s d t) (Lists d.language s []) := by
  unfold importStatement
  refine .after fun raw => ?_
  split
  · exact .pure .nil
  · dsimp only
    split
    · exact .after fun names => .pure (.none .ofImport)
    · exact .after fun names => .pure (.none .ofImport)

theorem lists_declaration (t : Tree) :
    Ensures (declaration s d t) (Lists d.language s (declarationRoutines s d t)) := by
  unfold declaration declarationRoutines
  generalize t.kind = kind
  split
  · refine Lists.named ?_
    generalize orEmpty _ = name
    exact lists_functionAt name t t
  · exact lists_classDeclaration t
  · exact lists_variableFunctions t
  · exact lists_variableFunctions t
  · split
    · exact .named_other fun _ => rfl
    · exact .ok .nil
  · split
    · exact .named_other fun _ => rfl
    · exact .ok .nil
  · next hfunction hclass hlexical hvariable _ _ =>
    split
    · exact absurd rfl hfunction
    · exact absurd rfl hclass
    · exact absurd rfl hlexical
    · exact absurd rfl hvariable
    · exact .ok .nil

theorem lists_statement (t : Tree) :
    Ensures (statement s d t) (Lists d.language s (statementRoutines s d t)) := by
  have hnone (hkind : t.kind = "import_statement") : declarationRoutines s d t = [] := by
    rw [declarationRoutines, hkind]
    rfl
  unfold statement statementRoutines
  generalize hk : t.kind = kind
  split
  · show Ensures _ (Lists d.language s (declarationRoutines s d t))
    rw [hnone hk]
    exact lists_importStatement t
  · exact Lists.gather _ fun c _ => lists_declaration c
  · exact lists_exportAssignment t
  · next _ hexport hexpression =>
    split
    · exact absurd rfl hexport
    · exact absurd rfl hexpression
    · exact lists_declaration t

theorem lists_extract : Ensures (extract d s) (Lists d.language s (routines d s)) :=
  .keep (Lists.gather _ fun t _ => lists_statement t) fun _ he => Shows.withComments he

end Script

namespace Go

theorem shows_callEmission (source : String) (t : Tree) :
    Ensures (callEmission s source t) (Shows s [] (Language.go.recordedCall? s source t).toList) :=
  Extract.shows_callEmission requests (by decide) (fun _ => rfl) source t

theorem lists_function (t : Tree) :
    Ensures (function s t) (Lists .go s (functionRoutines s t)) := by
  refine Lists.named ?_
  refine .after fun parameters => .after fun returns => ?_
  exact lists_routine shows_callEmission rfl (by simp)

theorem lists_method (t : Tree) : Ensures (method s t) (Lists .go s (methodRoutines s t)) := by
  refine Lists.named ?_
  generalize orEmpty _ = name
  refine .read fun receiver hreceiver => ?_
  rw [hreceiver, orEmpty_ok]
  generalize (if receiver.isEmpty then name else receiver ++ "." ++ name) = fullName
  refine .after fun parameters => .after fun returns => ?_
  -- a method without a receiver type is defined by nothing
  exact lists_routine shows_callEmission rfl (by split <;> simp [definesEdge])

theorem lists_importDeclaration (t : Tree) : Ensures (importDeclaration s t) (Lists .go s []) := by
  refine Lists.gather_nil fun spec _ => ?_
  unfold importSpec
  refine .after fun raw => ?_
  split
  · exact .pure .nil
  · exact .after fun name => .pure (.none .ofImport)

theorem lists_typeDeclaration (t : Tree) : Ensures (typeDeclaration s t) (Lists .go s []) := by
  refine Lists.gather_nil fun spec _ => ?_
  unfold typeSpec
  refine .named .nil fun name => ?_
  split
  · exact .pure (.none (.ofNode rfl))
  · split <;> exact .pure (.none (.ofNode rfl))

theorem lists_declaration (t : Tree) :
    Ensures (declaration s t) (Lists .go s (declarationRoutines s t)) := by
  unfold declaration declarationRoutines
  generalize t.kind = kind
  split
  · exact lists_importDeclaration t
  · exact lists_function t
  · exact lists_method t
  · exact lists_typeDeclaration t
  · next _ hfunction hmethod _ =>
    split
    · exact absurd rfl hfunction
    · exact absurd rfl hmethod
    · exact .ok .nil

theorem lists_extract : Ensures (extract s) (Lists .go s (routines s)) :=
  .keep (Lists.gather _ fun t _ => lists_declaration t) fun _ he => Shows.withComments he

end Go

namespace CSharp

theorem shows_callEdges (source : String) (t : Tree) :
    Ensures (callEdges s source t) (Shows s [] (Language.csharp.recordedCall? s source t).toList) :=
  shows_callOfKind (by decide) (fun _ => rfl) source t

theorem lists_method (className classId : String) (t : Tree) :
    Ensures (method s className classId t) (Lists .csharp s (methodRoutines s className t)) := by
  refine Lists.named ?_
  generalize orEmpty _ = name
  refine .after fun visible => .after fun async => .after fun names => .after fun returns =>
    .after fun route => ?_
  generalize className ++ "." ++ name = fullName
  -- a body is a block or an arrow with an expression, and both are walked
  refine .bind (Shows.walkBody (shows_callEdges (s.idOf fullName)) (t.child? "block")) fun block
    hblock => ?_
  refine .bind (Shows.walkBody (shows_callEdges (s.idOf fullName))
    (t.child? "arrow_expression_clause")) fun arrow harrow => ?_
  refine .pure (.routine ?_)
  rw [Language.callsIn]
  dsimp only [Site.routine]
  rw [flatMap_append]
  refine Shows.append_calls (Shows.append_calls (Shows.append_other (.ofRoutine rfl
    (stands_symbol s _ fullName t _ _ _) ?_) (.routeEmission _ t _)) hblock) harrow
  simp [definesEdge]

theorem lists_constructor (className classId : String) (t : Tree) :
    Ensures (constructor s className classId t)
      (Lists .csharp s (constructorRoutines s className t)) := by
  refine Lists.named ?_
  generalize orEmpty _ = name
  refine .after fun visible => .after fun names => ?_
  refine .bind (Shows.walkBody (shows_callEdges (s.idOf (className ++ "." ++ name ++ ".__ctor__")))
    (t.child? "block")) fun calls hcalls => .pure (.routine ?_)
  refine Shows.append_calls (.ofRoutine rfl ⟨rfl, rfl, rfl, rfl⟩ ?_) hcalls
  simp [definesEdge]

theorem lists_interfaceDeclaration (outer : String) (t : Tree) :
    Ensures (interfaceDeclaration s outer t) (Lists .csharp s []) :=
  Lists.named_other fun _ => rfl

theorem routinesOfMember_of_other {className : String} {m : Tree}
    (hmethod : m.kind ≠ "method_declaration")
    (hconstructor : m.kind ≠ "constructor_declaration") (hclass : m.kind ≠ "class_declaration") :
    routinesOfMember s className m = [] := by
  unfold routinesOfMember
  split
  · next hkind => exact absurd hkind hmethod
  · next hkind => exact absurd hkind hconstructor
  · next hkind => exact absurd hkind hclass
  · rfl

theorem lists_classDeclaration (outer : String) (t : Tree) :
    Ensures (classDeclaration s outer t) (Lists .csharp s (classRoutines s outer t)) := by
  induction t using member_induction generalizing outer with
  | step t ih =>
    rw [classDeclaration_eq, classRoutines_eq]
    refine Lists.named ?_
    refine .after fun visible => ?_
    refine .bind (Lists.gather _ fun m hm => ?_) fun members hmembers => .pure
      (Lists.append (.none (.ofNode rfl)) hmembers)
    unfold classMember
    split
    · next hkind =>
      rw [routinesOfMember, hkind]
      exact lists_method _ _ m
    · next hkind =>
      rw [routinesOfMember, hkind]
      exact lists_constructor _ _ m
    · next hkind =>
      rw [routinesOfMember, hkind]
      exact ih m hm _
    · next hmethod hconstructor hclass =>
      rw [routinesOfMember_of_other hmethod hconstructor hclass]
      exact .ok .nil

theorem lists_namespaceDeclaration (t : Tree) :
    Ensures (namespaceDeclaration s t) (Lists .csharp s (namespaceRoutines s t)) := by
  induction t using member_induction with
  | step t ih =>
    rw [namespaceDeclaration_eq, namespaceRoutines_eq]
    refine .read fun name hname => ?_
    rw [hname, orEmpty_ok]
    refine Lists.gather _ fun m hm => ?_
    have hnested := ih m hm
    unfold namespaceMember routinesInNamespace
    generalize m.kind = kind
    split
    · exact lists_classDeclaration name m
    · exact lists_interfaceDeclaration name m
    · exact hnested
    · next hclass _ hnamespace =>
      split
      · exact absurd rfl hclass
      · exact absurd rfl hnamespace
      · exact .ok .nil

theorem lists_usingDirective (t : Tree) : Ensures (usingDirective s t) (Lists .csharp s []) := by
  unfold usingDirective
  exact .named .nil fun name => .pure (.none .ofImport)

theorem lists_declaration (t : Tree) :
    Ensures (declaration s t) (Lists .csharp s (declarationRoutines s t)) := by
  unfold declaration declarationRoutines
  generalize t.kind = kind
  split
  · exact lists_usingDirective t
  · exact lists_namespaceDeclaration t
  · exact lists_classDeclaration "" t
  · exact lists_interfaceDeclaration "" t
  · next _ hnamespace hclass _ =>
    split
    · exact absurd rfl hnamespace
    · exact absurd rfl hclass
    · exact .ok .nil

theorem lists_extract : Ensures (extract s) (Lists .csharp s (routines s)) :=
  .keep (Lists.gather _ fun t _ => lists_declaration t) fun _ he => Shows.withComments he

end CSharp

end CodeAtlas.Extract

namespace CodeAtlas.Language

open Extract List
open Source (Tree Parsed)

theorem lists_extract (l : Language) (file : String) (parsed : Parsed) :
    Ensures (l.extract file parsed)
      (Lists l ⟨file, l.name, parsed⟩ (l.routines ⟨file, l.name, parsed⟩)) := by
  cases l with
  | php => exact Php.lists_extract
  | javascript => exact Script.lists_extract (d := .plain)
  | python => exact Python.lists_extract
  | typescript => exact Script.lists_extract (d := .typed)
  | go => exact Go.lists_extract
  | csharp => exact CSharp.lists_extract

/-- The tree node `t`, in a body of the routine `r`, calls `callee`, and the call is worth
recording. -/
structure CallIn (l : Language) (s : Site) (r : Routine) (t : Tree) (callee : String) : Prop where
  routine : r ∈ l.routines s
  body : ∃ body ∈ r.bodies, t ∈ body.preorder
  callee : resolveCallee (l.calledText s t) = some callee

def edgeOf (l : Language) (s : Site) (r : Routine) (t : Tree) (callee : String) : Edge :=
  callEdge r.id callee (l.keptText s t callee)

variable {l : Language} {file : String} {parsed : Parsed} {em : Emission}

/-- The calls of an extracted file are those in the bodies of its routines. -/
theorem mem_callEdges_iff (hem : extractSymbols l.name file parsed = .ok em) {e : Edge} :
    e ∈ callEdgesOf em.edges ↔ ∃ r t callee, l.CallIn ⟨file, l.name, parsed⟩ r t callee ∧
      l.edgeOf ⟨file, l.name, parsed⟩ r t callee = e := by
  rw [extractSymbols, ofName?_name] at hem
  have hcalls := (lists_extract l file parsed em hem).calls
  rw [hcalls]
  simp only [callsIn, recordedCall?, mem_flatMap, mem_filterMap, Option.map_eq_some_iff]
  constructor
  · rintro ⟨r, hr, body, hbody, t, ht, callee, hcallee, rfl⟩
    exact ⟨r, t, callee, ⟨hr, ⟨body, hbody, ht⟩, hcallee⟩, rfl⟩
  · rintro ⟨r, t, callee, ⟨hr, ⟨body, hbody, ht⟩, hcallee⟩, rfl⟩
    exact ⟨r, hr, body, hbody, t, ht, callee, hcallee, rfl⟩

theorem forall₂_stands (hem : extractSymbols l.name file parsed = .ok em) :
    List.Forall₂ (Routine.Stands ⟨file, l.name, parsed⟩) (l.routines ⟨file, l.name, parsed⟩)
      (em.nodes.filter isRoutine) := by
  rw [extractSymbols, ofName?_name] at hem
  exact (lists_extract l file parsed em hem).nodes

theorem exists_stands (hem : extractSymbols l.name file parsed = .ok em) {r : Routine}
    (hr : r ∈ l.routines ⟨file, l.name, parsed⟩) :
    ∃ n ∈ em.nodes, r.Stands ⟨file, l.name, parsed⟩ n := by
  have hnodes := forall₂_stands hem
  obtain ⟨i, hi, rfl⟩ := getElem_of_mem hr
  have hi' := hnodes.length_eq ▸ hi
  exact ⟨_, mem_of_mem_filter (getElem_mem hi'), hnodes.get hi hi'⟩

end CodeAtlas.Language
