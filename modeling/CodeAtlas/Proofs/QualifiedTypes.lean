import Mathlib.Data.List.Forall2
import Mathlib.Logic.Relation
import CodeAtlas.Proofs.Closure
import CodeAtlas.Proofs.Cutting

/-!
# Names of types

A class or an interface is named with what stands around it. The reader hands the name of a class
down to the classes in it, but the name of a namespace only to what stands directly in it: a
namespace in a namespace starts anew.
-/

namespace CodeAtlas.Extract.CSharp

open List
open Source (Tree Parsed)
open Text (join)

variable {s : Site}

/-! ## Scopes

Which types a file declares, by the places where they are declared. -/

/-- A place in a file, with the names of the namespaces and of the classes around it, outermost
first. -/
structure Scope where
  namespaces : List String
  classes : List String
  place : Tree

/-- One step inwards. Only a namespace that is in no class is entered, and no class without a
name. -/
inductive Encloses (s : Site) : Scope → Scope → Prop
  | inNamespace {namespaces : List String} {t m : Tree} {name : String}
      (hkind : t.kind = "namespace_declaration")
      (hname : namespaceName s t.children = .ok name) (hm : m ∈ bodyMembers t.children) :
      Encloses s ⟨namespaces, [], t⟩ ⟨namespaces ++ [name], [], m⟩
  | inClass {namespaces classes : List String} {t m : Tree} {name : String}
      (hkind : t.kind = "class_declaration")
      (hname : identifier s t = .ok name) (hne : name ≠ "") (hm : m ∈ bodyMembers t.children) :
      Encloses s ⟨namespaces, classes, t⟩ ⟨namespaces, classes ++ [name], m⟩

structure TypeDecl where
  scope : Scope
  own : String

/-- The declaration of a class, or of an interface that is in no class. -/
structure TypeDecl.Valid (s : Site) (d : TypeDecl) : Prop where
  kind : d.scope.place.kind = "class_declaration" ∨
    d.scope.place.kind = "interface_declaration" ∧ d.scope.classes = []
  named : identifier s d.scope.place = .ok d.own
  own_ne : d.own ≠ ""

def DeclaredIn (s : Site) (x : Scope) (d : TypeDecl) : Prop :=
  Relation.ReflTransGen (Encloses s) x d.scope ∧ d.Valid s

theorem declaredIn_iff {x : Scope} {d : TypeDecl} :
    DeclaredIn s x d ↔ x = d.scope ∧ d.Valid s ∨ ∃ y, Encloses s x y ∧ DeclaredIn s y d := by
  unfold DeclaredIn
  rw [Relation.ReflTransGen.cases_head_iff, or_and_right]
  refine or_congr_right ⟨?_, ?_⟩
  · rintro ⟨⟨y, hxy, hyd⟩, hd⟩
    exact ⟨y, hxy, hyd, hd⟩
  · rintro ⟨y, hxy, hyd, hd⟩
    exact ⟨⟨y, hxy, hyd⟩, hd⟩

section Steps

variable {namespaces classes : List String} {t : Tree} {name : String} {d : TypeDecl}

theorem declaredIn_class_iff (hkind : t.kind = "class_declaration")
    (hname : identifier s t = .ok name) (hne : name ≠ "") :
    DeclaredIn s ⟨namespaces, classes, t⟩ d ↔ d = ⟨⟨namespaces, classes, t⟩, name⟩ ∨
      ∃ m ∈ bodyMembers t.children, DeclaredIn s ⟨namespaces, classes ++ [name], m⟩ d := by
  rw [declaredIn_iff]
  refine or_congr ⟨?_, ?_⟩ ⟨?_, ?_⟩
  · obtain ⟨scope, own⟩ := d
    rintro ⟨rfl, hd⟩
    rw [Except.ok.inj (hname.symm.trans hd.named)]
  · rintro rfl
    exact ⟨rfl, .inl hkind, hname, hne⟩
  · rintro ⟨y, hstep, hd⟩
    cases hstep with
    | inNamespace hkind' => exact absurd (hkind.symm.trans hkind') (by decide)
    | inClass _ hname' _ hm =>
      rw [← Except.ok.inj (hname.symm.trans hname')] at hd
      exact ⟨_, hm, hd⟩
  · rintro ⟨m, hm, hd⟩
    exact ⟨_, .inClass hkind hname hne hm, hd⟩

theorem declaredIn_namespace_iff (hkind : t.kind = "namespace_declaration")
    (hname : namespaceName s t.children = .ok name) :
    DeclaredIn s ⟨namespaces, [], t⟩ d ↔
      ∃ m ∈ bodyMembers t.children, DeclaredIn s ⟨namespaces ++ [name], [], m⟩ d := by
  rw [declaredIn_iff]
  constructor
  · rintro (⟨hscope, hd⟩ | ⟨y, hstep, hd⟩)
    · have hkinds := hd.kind
      rw [← hscope, hkind] at hkinds
      exact absurd hkinds (by simp)
    · cases hstep with
      | inClass hkind' => exact absurd (hkind.symm.trans hkind') (by decide)
      | inNamespace _ hname' hm =>
        rw [← Except.ok.inj (hname.symm.trans hname')] at hd
        exact ⟨_, hm, hd⟩
  · rintro ⟨m, hm, hd⟩
    exact .inr ⟨_, .inNamespace hkind hname hm, hd⟩

theorem declaredIn_interface_iff (hkind : t.kind = "interface_declaration")
    (hname : identifier s t = .ok name)
    (hne : name ≠ "") : DeclaredIn s ⟨namespaces, [], t⟩ d ↔ d = ⟨⟨namespaces, [], t⟩, name⟩ := by
  rw [declaredIn_iff]
  constructor
  · obtain ⟨scope, own⟩ := d
    rintro (⟨rfl, hd⟩ | ⟨y, hstep, hd⟩)
    · rw [Except.ok.inj (hname.symm.trans hd.named)]
    · cases hstep with
      | inNamespace hkind' => exact absurd (hkind.symm.trans hkind') (by decide)
      | inClass hkind' => exact absurd (hkind.symm.trans hkind') (by decide)
  · rintro rfl
    exact .inl ⟨rfl, .inr ⟨hkind, rfl⟩, hname, hne⟩

theorem not_declaredIn_of_unnamed {name : String} (hkind : t.kind ≠ "namespace_declaration")
    (hname : identifier s t = .ok name) (hempty : name.isEmpty) :
    ¬ DeclaredIn s ⟨namespaces, classes, t⟩ d := by
  obtain rfl := String.isEmpty_iff.1 hempty
  rw [declaredIn_iff]
  rintro (⟨hscope, hd⟩ | ⟨y, hstep, hd⟩)
  · have hnamed := hd.named
    rw [← hscope] at hnamed
    exact hd.own_ne (Except.ok.inj (hname.symm.trans hnamed)).symm
  · cases hstep with
    | inNamespace hkind' => exact hkind hkind'
    | inClass _ hname' hne => exact hne (Except.ok.inj (hname.symm.trans hname')).symm

theorem not_declaredIn_of_other (hclass : t.kind ≠ "class_declaration")
    (hrest : classes = [] → t.kind ≠ "interface_declaration" ∧ t.kind ≠ "namespace_declaration") :
    ¬ DeclaredIn s ⟨namespaces, classes, t⟩ d := by
  rw [declaredIn_iff]
  rintro (⟨hscope, hd⟩ | ⟨y, hstep, hd⟩)
  · have hkinds := hd.kind
    rw [← hscope] at hkinds
    rcases hkinds with hkind | ⟨hkind, hnone⟩
    · exact hclass hkind
    · exact (hrest hnone).1 hkind
  · cases hstep with
    | inNamespace hkind' => exact (hrest rfl).2 hkind'
    | inClass hkind' => exact hclass hkind'

end Steps

/-! ## Names

The name that is given has the innermost namespace only. -/

/-- Names, from the outside inwards, joined by dots. A namespace may have no name. -/
def dotted (names : List String) : String :=
  join "." (names.filter (· ≠ ""))

/-- The name of a scope for what stands in it: its classes and the innermost namespace. -/
def outerName (namespaces classes : List String) : String :=
  dotted (namespaces.getLast?.toList ++ classes)

/-- The name that a type gets. -/
def TypeDecl.given (d : TypeDecl) : String :=
  outerName d.scope.namespaces (d.scope.classes ++ [d.own])

/-- The name with everything around it; `given_eq_full_iff` says when the two are the same. -/
def TypeDecl.full (d : TypeDecl) : String :=
  dotted (d.scope.namespaces ++ d.scope.classes ++ [d.own])

theorem join_ne_empty {names : List String} (hnil : names ≠ []) (h : ∀ n ∈ names, n ≠ "") :
    join "." names ≠ "" := by
  obtain ⟨first, rest, rfl⟩ := exists_cons_of_ne_nil hnil
  obtain ⟨after, hjoin⟩ := Text.exists_toList_join_head "." first rest
  intro hempty
  rw [hempty] at hjoin
  exact h first mem_cons_self (String.toList_eq_nil_iff.1 (append_eq_nil_iff.1 hjoin.symm).1)

theorem qualify_dotted (names : List String) {name : String} (hne : name ≠ "") :
    qualify (dotted names) name = dotted (names ++ [name]) := by
  have hlast : [name].filter (· ≠ "") = [name] := by simp [hne]
  unfold dotted qualify
  rw [filter_append, hlast]
  by_cases hnil : names.filter (· ≠ "") = []
  · rw [hnil]
    rfl
  · have hfront := join_ne_empty hnil fun n hn => of_decide_eq_true (mem_filter.1 hn).2
    -- there is a name in front, so the dot is put
    rw [if_neg (by simpa using hfront), ← String.toList_inj,
      Text.toList_join_append_join "." hnil (cons_ne_nil _ _)]
    simp [join]

theorem outerName_concat_namespace (namespaces : List String) (name : String) :
    outerName (namespaces ++ [name]) [] = name := by
  by_cases hne : name = ""
  · simp [outerName, dotted, hne, join]
  · simp [outerName, dotted, hne, join]

theorem qualify_outerName (namespaces classes : List String) {name : String} (hne : name ≠ "") :
    qualify (outerName namespaces classes) name = outerName namespaces (classes ++ [name]) := by
  rw [outerName, qualify_dotted _ hne, append_assoc]
  rfl

theorem join_append_eq_iff {front names : List String} (hnames : names ≠ []) :
    join "." names = join "." (front ++ names) ↔ front = [] := by
  constructor
  · intro h
    by_contra hfront
    have hlength := congrArg (fun text => text.toList.length) h
    simp [Text.toList_join_append_join "." hfront hnames] at hlength
    omega
  · rintro rfl
    rfl

/-- A name lacks the outer namespaces, so it is full if these have no names. -/
theorem given_eq_full_iff {d : TypeDecl} (hown : d.own ≠ "") :
    d.given = d.full ↔ ∀ name ∈ d.scope.namespaces.dropLast, name = "" := by
  have hsplit :
      d.scope.namespaces = d.scope.namespaces.dropLast ++ d.scope.namespaces.getLast?.toList := by
    rcases eq_nil_or_concat' d.scope.namespaces with h | ⟨front, last, h⟩
    · simp [h]
    · simp [h]
  -- the innermost namespace is part of both names
  have hfull : d.full = join "." (d.scope.namespaces.dropLast.filter (· ≠ "") ++
      (d.scope.namespaces.getLast?.toList ++ (d.scope.classes ++ [d.own])).filter (· ≠ "")) := by
    rw [← filter_append, ← append_assoc d.scope.namespaces.dropLast, ← hsplit, ← append_assoc]
    rfl
  have hne : (d.scope.namespaces.getLast?.toList ++ (d.scope.classes ++ [d.own])).filter (· ≠ "") ≠
      [] :=
    ne_nil_of_mem (a := d.own) (by simp [hown])
  rw [hfull, TypeDecl.given, outerName, dotted, join_append_eq_iff hne, filter_eq_nil_iff]
  simp

def isType (n : Node) : Bool :=
  n.kind == .classDecl || n.kind == .interfaceDecl

def typeKind (t : Tree) : NodeKind :=
  if t.kind = "class_declaration" then .classDecl else .interfaceDecl

structure TypeDecl.Stands (s : Site) (d : TypeDecl) (n : Node) : Prop where
  kind : n.kind = typeKind d.scope.place
  name : n.name = d.given
  id : n.id = s.idOf d.given
  loc : n.loc = s.locate d.scope.place

/-- The nodes of types in an emission stand for the types that satisfy `P`, one for one. -/
def Names (s : Site) (P : TypeDecl → Prop) (e : Emission) : Prop :=
  ∃ ds : List TypeDecl, List.Forall₂ (TypeDecl.Stands s) ds (e.nodes.filter isType) ∧ ∀ d,
    d ∈ ds ↔ P d

def Untyped (e : Emission) : Prop :=
  ∀ n ∈ e.nodes, isType n = false

namespace Names

variable {P Q : TypeDecl → Prop} {a b e : Emission}

theorem congr (h : Names s P e) (hPQ : ∀ d, P d ↔ Q d) : Names s Q e := by
  rwa [funext fun d => propext (hPQ d)] at h

theorem untyped (he : Untyped e) (hP : ∀ d, ¬ P d) : Names s P e := by
  refine ⟨[], ?_, fun d => iff_of_false not_mem_nil (hP d)⟩
  rw [filter_eq_nil_iff.2 fun n hn => by simp [he n hn]]
  exact .nil

theorem nil (hP : ∀ d, ¬ P d) : Names s P {} :=
  untyped (fun _ h => absurd h not_mem_nil) hP

theorem append (ha : Names s P a) (hb : Names s Q b) : Names s (fun d => P d ∨ Q d) (a ++ b) := by
  obtain ⟨ds, hds, hP⟩ := ha
  obtain ⟨ds', hds', hQ⟩ := hb
  refine ⟨ds ++ ds', ?_, fun d => by rw [mem_append, hP, hQ]⟩
  rw [Emission.append_nodes, filter_append]
  exact rel_append hds hds'

theorem gather {α : Type} {emit : α → Reads Emission} {types : α → TypeDecl → Prop} {items : List α}
    (h : ∀ a ∈ items, Ensures (emit a) (Names s (types a))) :
    Ensures (Emission.gather emit items) (Names s fun d => ∃ a ∈ items, types a d) := by
  induction items with
  | nil => exact .ok (nil fun d hd => by simp at hd)
  | cons a rest ih =>
    refine .bind (h a mem_cons_self) fun first hfirst => ?_
    refine .bind (ih fun b hb => h b (mem_cons_of_mem a hb)) fun others hothers => ?_
    exact .pure ((hfirst.append hothers).congr fun d => by simp)

theorem withComments {kinds : List String} (he : Names s P e) :
    Ensures (withComments s kinds e) (Names s P) := by
  intro e' hrun
  obtain ⟨found, hfound, rfl⟩ := ensures_withComments s kinds e e' hrun
  have huntyped : Untyped { nodes := found } := fun n hn => by simp [isType, hfound n hn]
  exact (he.append (Q := fun _ => False) (untyped huntyped fun _ h => h)).congr fun d => by simp

theorem ofType {d : TypeDecl} {n : Node} (hd : d.Stands s n) (he : Names s P e) :
    Names s (fun d' => d' = d ∨ P d') (.ofNode n ++ e) := by
  have htype : isType n := by
    unfold isType
    rw [hd.kind, typeKind]
    split
    · rfl
    · rfl
  refine Names.append ⟨[d], ?_, fun d' => mem_singleton⟩ he
  rw [Emission.ofNode, filter_cons_of_pos htype]
  exact .cons hd .nil

end Names

/-! ## The declarations of a file

One lemma for each kind of declaration. -/

namespace Untyped

variable {a b e : Emission}

theorem nil : Untyped {} :=
  fun _ h => absurd h not_mem_nil

theorem append (ha : Untyped a) (hb : Untyped b) : Untyped (a ++ b) :=
  fun n hn => (mem_append.1 hn).elim (ha n) (hb n)

theorem ofCalls (he : OnlyCalls e) : Untyped e :=
  fun n hn => absurd hn (by simp [he.nodes])

theorem ofMember {n : Node} {edges : List Edge} (hn : n.kind = .method) : Untyped ⟨[n], edges⟩ :=
  fun m hm => by rw [mem_singleton.1 hm, isType, hn]; rfl

theorem routeEmission (owner : String) (t : Tree) (route : Option String) :
    Untyped (routeEmission s owner t route) := by
  intro n hn
  obtain ⟨r, -, rfl⟩ := mem_nodes_routeEmission_iff.1 hn
  rfl

end Untyped

theorem untyped_method (className classId : String) (t : Tree) :
    Ensures (method s className classId t) Untyped := by
  refine .named .nil fun name => ?_
  refine .after fun visible => .after fun async => .after fun names => .after fun returns =>
    .after fun route => ?_
  refine .bind (OnlyCalls.ofBody s _ _ _) fun block hblock => .bind (OnlyCalls.ofBody s _ _ _)
    fun arrow harrow => .pure ?_
  exact (((Untyped.ofMember rfl).append (.routeEmission _ t route)).append (.ofCalls hblock)).append
    (.ofCalls harrow)

theorem untyped_constructor (className classId : String) (t : Tree) :
    Ensures (constructor s className classId t) Untyped := by
  refine .named .nil fun name => ?_
  refine .after fun visible => .after fun names => ?_
  exact .bind (OnlyCalls.ofBody s _ _ _) fun calls hcalls =>
    .pure ((Untyped.ofMember rfl).append (.ofCalls hcalls))

theorem stands_qualified (namespaces classes : List String) (t : Tree) (name : String)
    (kind : NodeKind) (traits : Traits) (hkind : kind = typeKind t) (hne : name ≠ "") :
    TypeDecl.Stands s ⟨⟨namespaces, classes, t⟩, name⟩
      (s.symbol kind (qualify (outerName namespaces classes) name) t traits) := by
  rw [qualify_outerName namespaces classes hne]
  exact ⟨hkind, rfl, rfl, rfl⟩

theorem names_interfaceDeclaration (namespaces : List String) {t : Tree}
    (hkind : t.kind = "interface_declaration") :
    Ensures (interfaceDeclaration s (outerName namespaces []) t)
      (Names s (DeclaredIn s ⟨namespaces, [], t⟩)) := by
  refine .read fun name hname => ?_
  split
  · next hempty => exact .pure (.nil fun d => not_declaredIn_of_unnamed (by rw [hkind]; decide)
        hname hempty)
  · next hne =>
    have hne : name ≠ "" := by simpa using hne
    have hstands :=
      stands_qualified (s := s) namespaces [] t name .interfaceDecl { visibility := some "public" }
      (by rw [typeKind, hkind]; rfl) hne
    have hnames := Names.ofType hstands (.nil (P := fun _ => False) fun _ h => h)
    refine .pure (hnames.congr fun d => ?_)
    rw [declaredIn_interface_iff hkind hname hne, or_false]

/-- A class names itself and the classes in it. Induction on the members, with the names around
them. -/
theorem names_classDeclaration (namespaces classes : List String) {t : Tree}
    (hkind : t.kind = "class_declaration") :
    Ensures (classDeclaration s (outerName namespaces classes) t)
      (Names s (DeclaredIn s ⟨namespaces, classes, t⟩)) := by
  induction t using member_induction generalizing classes with
  | step t ih =>
    rw [classDeclaration_eq]
    refine .read fun name hname => ?_
    split
    · next hempty => exact .pure (.nil fun d => not_declaredIn_of_unnamed (by rw [hkind]; decide)
          hname hempty)
    · next hne =>
      have hne : name ≠ "" := by simpa using hne
      refine .after fun visible => ?_
      have hstands := stands_qualified (s := s) namespaces classes t name .classDecl
        { visibility := visible } (by rw [typeKind, hkind]; rfl) hne
      refine .bind (Names.gather fun m hm => ?_) fun members hmembers => .pure
        ((Names.ofType hstands hmembers).congr fun d => (declaredIn_class_iff hkind hname hne).symm)
      -- seen from its members, this class is the last of the classes around
      rw [qualify_outerName namespaces classes hne]
      -- in a class neither interfaces nor namespaces are looked for
      have hother (hkind : m.kind ≠ "class_declaration") (d : TypeDecl) :
          ¬ DeclaredIn s ⟨namespaces, classes ++ [name], m⟩ d :=
        not_declaredIn_of_other hkind fun h => absurd h (by simp)
      unfold classMember
      split
      · next hkind =>
        exact fun e he => .untyped (untyped_method _ _ m e he) (hother (by rw [hkind]; decide))
      · next hkind =>
        exact fun e he => .untyped (untyped_constructor _ _ m e he) (hother (by rw [hkind]; decide))
      · next hkind => exact ih m hm _ hkind
      · next hkind => exact .ok (.nil (hother hkind))

/-- What stands in a namespace is named with that namespace, whatever is around it. -/
theorem names_namespaceDeclaration (namespaces : List String) {t : Tree}
    (hkind : t.kind = "namespace_declaration") :
    Ensures (namespaceDeclaration s t) (Names s (DeclaredIn s ⟨namespaces, [], t⟩)) := by
  induction t using member_induction generalizing namespaces with
  | step t ih =>
    rw [namespaceDeclaration_eq]
    refine .read fun name hname => ?_
    -- the name that is handed down forgets the namespaces around, the scope does not
    have hmembers : Ensures (Emission.gather (namespaceMember s name) (bodyMembers t.children))
        (Names s fun d =>
          ∃ m ∈ bodyMembers t.children, DeclaredIn s ⟨namespaces ++ [name], [], m⟩ d) := by
      refine Names.gather fun m hm => ?_
      unfold namespaceMember
      split
      · next hkind =>
        have hclass := names_classDeclaration (s := s) (namespaces ++ [name]) [] hkind
        rwa [outerName_concat_namespace] at hclass
      · next hkind =>
        have hinterface := names_interfaceDeclaration (s := s) (namespaces ++ [name]) hkind
        rwa [outerName_concat_namespace] at hinterface
      · next hkind => exact ih m hm _ hkind
      · next hclass hinterface hnamespace =>
        exact .ok (.nil fun d => not_declaredIn_of_other hclass fun _ => ⟨hinterface, hnamespace⟩)
    exact fun e he => (hmembers e he).congr fun d => (declaredIn_namespace_iff hkind hname).symm

theorem names_declaration (t : Tree) :
    Ensures (declaration s t) (Names s (DeclaredIn s ⟨[], [], t⟩)) := by
  have hother (hclass : t.kind ≠ "class_declaration")
      (hinterface : t.kind ≠ "interface_declaration")
      (hnamespace : t.kind ≠ "namespace_declaration") (d : TypeDecl) :
        ¬ DeclaredIn s ⟨[], [], t⟩ d :=
    not_declaredIn_of_other hclass fun _ => ⟨hinterface, hnamespace⟩
  unfold declaration
  split
  · next hkind =>
    have hnone := hother (by rw [hkind]; decide) (by rw [hkind]; decide) (by rw [hkind]; decide)
    refine .after fun name => ?_
    split
    · exact .pure (.nil hnone)
    · exact .pure (.untyped (fun _ h => absurd h not_mem_nil) hnone)
  · next hkind => exact names_namespaceDeclaration [] hkind
  · next hkind => exact names_classDeclaration [] [] hkind
  · next hkind => exact names_interfaceDeclaration [] hkind
  · next hnamespace hclass hinterface => exact .ok (.nil (hother hclass hinterface hnamespace))

def Declared (s : Site) (d : TypeDecl) : Prop :=
  ∃ t ∈ s.parsed.root.children, DeclaredIn s ⟨[], [], t⟩ d

theorem names_extract : Ensures (extract s) (Names s (Declared s)) :=
  .bind (Names.gather fun t _ => names_declaration t) fun _ he => he.withComments

/-! ## Reading ends

As for routes: in a legible file nothing that is read fails. -/

section Returning

variable {t : Tree} (hs : s.Legible)

include hs

theorem returns_identifier (ht : s.Holds t) : Returns (identifier s t) := by
  unfold identifier
  split
  · next c hc => exact hs c (ht.of_mem_children (mem_of_find?_eq_some hc))
  · exact .ok _

variable {ts : List Tree}

theorem returns_modifier? (accept : String → Bool) (hts : ∀ c ∈ ts, s.Holds c) :
    Returns (modifier? s accept ts) := by
  induction ts with
  | nil => exact .ok _
  | cons c ts ih =>
    have hrest := ih fun b hb => hts b (mem_cons_of_mem _ hb)
    rw [modifier?]
    split
    · refine .bind (hs c (hts c mem_cons_self)) fun text => ?_
      split
      · exact .pure _
      · exact hrest
    · exact hrest

theorem returns_parameters (ht : s.Holds t) : Returns (parameters s t) := by
  unfold parameters
  split
  · next list hlist =>
    refine .collect fun p hp => ?_
    unfold parameterName
    split
    · split
      · next c hc =>
        have hmem : c ∈ p.children := mem_reverse.1 (mem_of_find?_eq_some hc)
        exact (hs c (((ht.child hlist).of_mem_children hp).of_mem_children hmem)).map _
      · exact .ok _
    · exact .ok _
  · exact .ok _

theorem returns_returnType (ht : s.Holds t) : Returns (returnType s t) := by
  unfold returnType
  dsimp only
  split
  · next c hc =>
    have hmem : c ∈ t.children :=
      (takeWhile_sublist _).subset (mem_filter.1 (mem_of_getLast? hc)).1
    exact (hs c (ht.of_mem_children hmem)).map _
  · exact .ok _

theorem returns_partsLiteral (hts : ∀ c ∈ ts, s.Holds c) : Returns (partsLiteral s ts) := by
  induction ts with
  | nil => exact .ok _
  | cons c ts ih =>
    have htext := hs c (hts c mem_cons_self)
    have hliteral : Returns (literalText s c) := by
      unfold literalText
      split
      · exact .pure _
      · split
        · exact .bind htext fun text => .pure _
        · split
          · exact .bind htext fun text => .pure _
          · exact .pure _
    rw [partsLiteral]
    refine .bind hliteral fun literal => ?_
    split
    · exact .pure _
    · exact ih fun b hb => hts b (mem_cons_of_mem _ hb)

theorem returns_argumentLiteral (hts : ∀ c ∈ ts, s.Holds c) : Returns (argumentLiteral s ts) := by
  induction ts with
  | nil => exact .ok _
  | cons c ts ih =>
    have hrest := ih fun b hb => hts b (mem_cons_of_mem _ hb)
    have hc := hts c mem_cons_self
    rw [argumentLiteral]
    split
    · refine .bind (returns_partsLiteral hs fun b hb => hc.of_mem_children hb) fun literal => ?_
      split
      · exact .pure _
      · exact hrest
    · split
      · exact .bind (hs c hc) fun text => .pure _
      · exact hrest

theorem returns_readAttribute (parts : RouteParts) (ht : s.Holds t) :
    Returns (readAttribute s parts t) := by
  refine .bind (returns_identifier hs ht) fun name => ?_
  dsimp only
  split
  · split
    · next args hargs =>
      exact .bind (returns_argumentLiteral hs fun b hb => (ht.child hargs).of_mem_children hb)
        fun path => .pure _
    · exact .pure _
  · exact .pure _

theorem returns_declaredRoute (ht : s.Holds t) : Returns (declaredRoute s t) := by
  have hattributes (attributes : List Tree) (h : ∀ a ∈ attributes, s.Holds a) (parts : RouteParts) :
      Returns (attributes.foldlM (readAttribute s) parts) := by
    -- every attribute goes on from the parts that were read before it
    induction attributes generalizing parts with
    | nil => exact .pure _
    | cons a rest ih =>
      rw [foldlM_cons]
      exact .bind (returns_readAttribute hs parts (h a mem_cons_self))
        (ih fun b hb => h b (mem_cons_of_mem _ hb))
  refine .bind (hattributes _ (fun a ha => ?_) _) fun parts => ?_
  · obtain ⟨list, hlist, ha⟩ := mem_flatMap.1 ha
    exact (ht.of_mem_children (mem_filter.1 hlist).1).of_mem_children (mem_filter.1 ha).1
  · split
    · exact .pure _
    · exact .pure _

theorem returns_method (className classId : String) (ht : s.Holds t) :
    Returns (method s className classId t) := by
  have hmodifier (accept : String → Bool) : Returns (modifier? s accept t.children) :=
    returns_modifier? hs accept fun c hc => ht.of_mem_children hc
  refine .named (returns_identifier hs ht) fun name => ?_
  refine .bind (hmodifier _) fun visible => .bind (hmodifier _) fun async => ?_
  refine .bind (returns_parameters hs ht) fun names => .bind (returns_returnType hs ht)
    fun returns => ?_
  refine .bind (returns_declaredRoute hs ht) fun route => ?_
  exact .bind (.calls hs ht _ _ _) fun block => .bind (.calls hs ht _ _ _) fun arrow => .pure _

theorem returns_constructor (className classId : String) (ht : s.Holds t) :
    Returns (constructor s className classId t) := by
  refine .named (returns_identifier hs ht) fun name => ?_
  refine .bind (returns_modifier? hs _ fun c hc => ht.of_mem_children hc) fun visible => ?_
  exact .bind (returns_parameters hs ht) fun names => .bind (.calls hs ht _ _ _) fun calls =>
    .pure _

theorem returns_interfaceDeclaration (outer : String) (ht : s.Holds t) :
    Returns (interfaceDeclaration s outer t) := by
  exact .named (returns_identifier hs ht) fun name => .pure _

theorem returns_namespaceName (hts : ∀ c ∈ ts, s.Holds c) : Returns (namespaceName s ts) := by
  unfold namespaceName
  split
  · next c hc => exact hs c (hts c (mem_of_find?_eq_some hc))
  · exact .ok _

theorem returns_classDeclaration (outer : String) (ht : s.Holds t) :
    Returns (classDeclaration s outer t) := by
  induction t using member_induction generalizing outer with
  | step t ih =>
    rw [classDeclaration_eq]
    refine .named (returns_identifier hs ht) fun name => ?_
    refine .bind (returns_modifier? hs _ fun c hc => ht.of_mem_children hc) fun visible => ?_
    refine .bind (.gather fun m hm => ?_) fun members => .pure _
    have hholds := holds_of_mem_bodyMembers ht hm
    unfold classMember
    split
    · exact returns_method hs _ _ hholds
    · exact returns_constructor hs _ _ hholds
    · exact ih m hm _ hholds
    · exact .ok _

theorem returns_namespaceDeclaration (ht : s.Holds t) : Returns (namespaceDeclaration s t) := by
  induction t using member_induction with
  | step t ih =>
    rw [namespaceDeclaration_eq]
    refine .bind (returns_namespaceName hs fun c hc => ht.of_mem_children hc) fun name =>
      .gather fun m hm => ?_
    have hholds := holds_of_mem_bodyMembers ht hm
    unfold namespaceMember
    split
    · exact returns_classDeclaration hs name hholds
    · exact returns_interfaceDeclaration hs name hholds
    · exact ih m hm hholds
    · exact .ok _

theorem returns_declaration (ht : s.Holds t) : Returns (declaration s t) := by
  unfold declaration
  split
  · refine .bind (returns_namespaceName hs fun c hc => ht.of_mem_children hc) fun name => ?_
    split
    · exact .pure _
    · exact .pure _
  · exact returns_namespaceDeclaration hs ht
  · exact returns_classDeclaration hs "" ht
  · exact returns_interfaceDeclaration hs "" ht
  · exact .ok _

theorem returns_extract : Returns (extract s) :=
  .bind (.gather fun _ ht => returns_declaration hs (Site.Holds.root.of_mem_children ht)) fun e =>
    .withComments hs _ e

end Returning

theorem map_name_eq {ds : List TypeDecl} {ns : List Node}
    (h : List.Forall₂ (TypeDecl.Stands s) ds ns) : ns.map Node.name = ds.map TypeDecl.given := by
  induction h with
  | nil => rfl
  | cons hd _ ih => rw [map_cons, map_cons, hd.name, ih]

/-- **How types are named.** A file in which every span is text is read to its end. Whenever a file
is, its classes and interfaces stand for the declared types, one for one. Each has the full name of
its type exactly if no namespace around it has a name, except the innermost one; so all names are
full exactly if that holds of all declared types. -/
theorem type_names_full_iff (s : Site) :
    (s.Legible → Returns (extract s)) ∧
    ∀ em, extract s = .ok em → ∃ ds : List TypeDecl,
      (∀ d, d ∈ ds ↔ Declared s d) ∧
      List.Forall₂ (TypeDecl.Stands s) ds (em.nodes.filter isType) ∧
      (∀ d, Declared s d → (d.given = d.full ↔ ∀ name ∈ d.scope.namespaces.dropLast, name = "")) ∧
      ((em.nodes.filter isType).map Node.name = ds.map TypeDecl.full ↔
        ∀ d, Declared s d → ∀ name ∈ d.scope.namespaces.dropLast, name = "") := by
  refine ⟨returns_extract, fun em hem => ?_⟩
  obtain ⟨ds, hstands, hds⟩ := names_extract em hem
  have hfull (d : TypeDecl) (hd : Declared s d) :
      d.given = d.full ↔ ∀ name ∈ d.scope.namespaces.dropLast, name = "" := by
    obtain ⟨t, -, -, hvalid⟩ := hd
    exact given_eq_full_iff hvalid.own_ne
  refine ⟨ds, hds, hstands, hfull, ?_⟩
  rw [map_name_eq hstands, map_inj_left]
  constructor
  · exact fun h d hd => (hfull d hd).1 (h d ((hds d).2 hd))
  · exact fun h d hd => (hfull d ((hds d).1 hd)).2 (h d ((hds d).1 hd))

def deskClass : Tree :=
  .node "class_declaration" 17 30 [.node "identifier" 23 27 [], .node "declaration_list" 28 30 []]

def lineClass : Tree :=
  .node "class_declaration" 62 75 [.node "identifier" 68 72 [], .node "declaration_list" 73 75 []]

def cartClass : Tree :=
  .node "class_declaration" 49 77 [.node "identifier" 55 59 [],
    .node "declaration_list" 60 77 [lineClass]]

def cartsNamespace : Tree :=
  .node "namespace_declaration" 31 79 [.node "identifier" 41 46 [],
    .node "declaration_list" 47 79 [cartClass]]

def shopNamespace : Tree :=
  .node "namespace_declaration" 0 81
    [.node "identifier" 10 14 [], .node "declaration_list" 15 81 [deskClass, cartsNamespace]]

/-- A file with a class in a class in a namespace in a namespace. -/
def nestedSite : Site where
  file := "Shop.cs"
  language := "csharp"
  parsed :=
    { bytes := Text.Utf8.encode
        "namespace Shop \x7b class Desk \x7b\x7d namespace Carts \x7b class Cart \x7b class Line \x7b\x7d \x7d \x7d \x7d"
      root := .node "compilation_unit" 0 81 [shopNamespace] }

theorem legible_nestedSite : nestedSite.Legible :=
  Site.legible_of_all (by decide +kernel)

theorem declared_nestedSite : Declared nestedSite ⟨⟨["Shop"], [], deskClass⟩, "Desk"⟩ ∧
    Declared nestedSite ⟨⟨["Shop", "Carts"], ["Cart"], lineClass⟩, "Line"⟩ := by
  have hnames : (namespaceName nestedSite shopNamespace.children).toOption = some "Shop" ∧
      (namespaceName nestedSite cartsNamespace.children).toOption = some "Carts" ∧
      (identifier nestedSite deskClass).toOption = some "Desk" ∧
      (identifier nestedSite cartClass).toOption = some "Cart" ∧
      (identifier nestedSite lineClass).toOption = some "Line" := by
    decide +kernel
  obtain ⟨hshop, hcarts, hdesk, hcart, hline⟩ := hnames
  have hstart : shopNamespace ∈ nestedSite.parsed.root.children := mem_cons_self
  have hinShop {m : Tree} (hm : m ∈ [deskClass, cartsNamespace]) :
      Encloses nestedSite ⟨[], [], shopNamespace⟩ ⟨["Shop"], [], m⟩ :=
    .inNamespace rfl (eq_ok_of_toOption hshop) hm
  have hinCarts : Encloses nestedSite ⟨["Shop"], [], cartsNamespace⟩ ⟨["Shop", "Carts"], [],
      cartClass⟩ :=
    .inNamespace rfl (eq_ok_of_toOption hcarts) mem_cons_self
  have hinCart : Encloses nestedSite ⟨["Shop", "Carts"], [], cartClass⟩ ⟨["Shop", "Carts"],
      ["Cart"], lineClass⟩ :=
    .inClass rfl (eq_ok_of_toOption hcart) (by decide) mem_cons_self
  refine ⟨⟨_, hstart, ?_, .inl rfl, eq_ok_of_toOption hdesk, by decide⟩,
    ⟨_, hstart, ?_, .inl rfl, eq_ok_of_toOption hline, by decide⟩⟩
  · exact .single (hinShop (by simp))
  · exact .head (hinShop (by simp)) (.head hinCarts (.single hinCart))

theorem type_names_full_iff_nestedSite :
    nestedSite.Legible ∧ ∃ em, extract nestedSite = .ok em ∧
      (∃ n ∈ em.nodes, n.kind = .classDecl ∧ n.name = "Shop.Desk") ∧
      ∃ d n, Declared nestedSite d ∧ n ∈ em.nodes ∧ d.Stands nestedSite n ∧
        n.name = "Carts.Cart.Line" ∧ d.full = "Shop.Carts.Cart.Line" := by
  obtain ⟨hreturns, hrun⟩ := type_names_full_iff nestedSite
  obtain ⟨em, hem⟩ := hreturns legible_nestedSite
  obtain ⟨ds, hds, hstands, -⟩ := hrun em hem
  obtain ⟨hdesk, hline⟩ := declared_nestedSite
  have hnode {d : TypeDecl} (hd : Declared nestedSite d) :
      ∃ n ∈ em.nodes, d.Stands nestedSite n := by
    obtain ⟨i, hi, rfl⟩ := getElem_of_mem ((hds d).2 hd)
    have hi' := hstands.length_eq ▸ hi
    exact ⟨_, mem_of_mem_filter (getElem_mem hi'), hstands.get hi hi'⟩
  have hgiven : TypeDecl.given ⟨⟨["Shop"], [], deskClass⟩, "Desk"⟩ = "Shop.Desk" ∧
      TypeDecl.given ⟨⟨["Shop", "Carts"], ["Cart"], lineClass⟩, "Line"⟩ = "Carts.Cart.Line" := by
    decide +kernel
  obtain ⟨m, hm, hdeskNode⟩ := hnode hdesk
  obtain ⟨n, hn, hlineNode⟩ := hnode hline
  refine ⟨legible_nestedSite, em, hem, ⟨m, hm, hdeskNode.kind, hdeskNode.name.trans hgiven.1⟩, ?_⟩
  exact ⟨_, n, hline, hn, hlineNode, hlineNode.name.trans hgiven.2, by decide +kernel⟩

end CodeAtlas.Extract.CSharp
