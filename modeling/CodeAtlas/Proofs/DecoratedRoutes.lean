import CodeAtlas.Proofs.Closure

/-!
# Routes of decorated functions

A decorator registers a route if it is a call of a route method on one of a few objects, with a path
as its first string. The decorators of a function are read one after the other and each replaces
what the one before it gave, so only the last decorator counts, be it a route or not.
-/

namespace CodeAtlas.Extract.Python

open List
open Source (Tree Parsed)

variable {s : Site}

/-! ## What a decorator registers

The rule for a single decorator, said without the reader and then shown to be what it decides. -/

/-- A call of a route method on an object that has routes. -/
def IsRouteCall (s : Site) (call : Tree) : Prop :=
  ∃ callee object method o m, call.children.head? = some callee ∧ callee.kind = "attribute" ∧
    callee.child? "identifier" = some object ∧ callee.children.getLast? = some method ∧
    method.kind = "identifier" ∧ s.parsed.text object = .ok o ∧ s.parsed.text method = .ok m ∧
    Text.lower o ∈ routeObjects ∧ Text.lower m ∈ routeMethods

/-- The first string among the arguments of a call is this text in quotes. -/
def HasFirstString (s : Site) (call : Tree) (r : String) : Prop :=
  ∃ arguments literal text, call.child? "argument_list" = some arguments ∧
    arguments.child? "string" = some literal ∧ s.parsed.text literal = .ok text ∧
    r = Text.trimOf ['\'', '"'] text

/-- A decorator registers a route, said without the reader; `decoratorRoute_eq_some_iff` ties the
two. -/
def Registers (s : Site) (d : Tree) (r : String) : Prop :=
  r ≠ "" ∧ ∃ call, d.child? "call" = some call ∧ IsRouteCall s call ∧ HasFirstString s call r

variable {r name : String} {f : Tree}

theorem firstStringArgument_eq_some_iff {call : Tree} :
    firstStringArgument s call = .ok (some r) ↔ HasFirstString s call r := by
  unfold firstStringArgument HasFirstString
  constructor
  · intro h
    split at h
    · next literal hliteral =>
      obtain ⟨arguments, harguments, hstring⟩ := Option.bind_eq_some_iff.1 hliteral
      obtain ⟨text, htext, hr⟩ := bind_eq_ok_iff.1 h
      exact ⟨arguments, literal, text, harguments, hstring, htext,
        (Option.some.inj (Except.ok.inj hr)).symm⟩
    · cases h
  · rintro ⟨arguments, literal, text, harguments, hstring, htext, rfl⟩
    rw [harguments, Option.bind_some, hstring]
    exact bind_eq_ok_iff.2 ⟨text, htext, rfl⟩

/-- The reader of decorators decides what they register. -/
theorem decoratorRoute_eq_some_iff {d : Tree} : decoratorRoute s d = .ok (some r) ↔
    ∃ call, d.child? "call" = some call ∧ IsRouteCall s call ∧ HasFirstString s call r := by
  unfold decoratorRoute
  constructor
  · intro h
    -- every guard that fails ends the reading without a route
    split at h
    · cases h
    · next call hcall =>
      split at h
      · cases h
      · next callee hcallee =>
        split at h
        · cases h
        · next hattribute =>
          split at h
          · next object method hobject hmethod =>
            split at h
            · cases h
            · next hidentifier =>
              obtain ⟨o, ho, h⟩ := bind_eq_ok_iff.1 h
              obtain ⟨m, hm, h⟩ := bind_eq_ok_iff.1 h
              dsimp only at h
              split at h
              · next hroute =>
                have hkinds : callee.kind = "attribute" ∧ method.kind = "identifier" := by
                  simpa using And.intro hattribute hidentifier
                have hnames : Text.lower o ∈ routeObjects ∧ Text.lower m ∈ routeMethods := by
                  simpa using hroute
                exact ⟨call, hcall, ⟨callee, object, method, o, m, hcallee, hkinds.1, hobject,
                  hmethod, hkinds.2, ho, hm, hnames⟩, firstStringArgument_eq_some_iff.1 h⟩
              · cases h
          · cases h
  · rintro ⟨call, hcall, ⟨callee, object, method, o, m, hcallee, hattribute, hobject, hmethod,
      hidentifier, ho, hm, hnames⟩, hstring⟩
    rw [hcall]
    dsimp only
    rw [hcallee]
    dsimp only
    rw [if_neg (by simp [hattribute]), hobject, hmethod]
    dsimp only
    rw [if_neg (by simp [hidentifier])]
    refine bind_eq_ok_iff.2 ⟨o, ho, bind_eq_ok_iff.2 ⟨m, hm, ?_⟩⟩
    rw [if_pos (by simpa using hnames)]
    exact firstStringArgument_eq_some_iff.2 hstring

def isDecorator (t : Tree) : Bool :=
  t.kind == "decorator"

def decorators (t : Tree) : List Tree :=
  t.children.filter isDecorator

/-- The last decorator of a definition registers this route. -/
def LastRegisters (s : Site) (t : Tree) (r : String) : Prop :=
  ∃ d, (decorators t).getLast? = some d ∧ Registers s d r

/-- The run over the decorators ends with what the last one gives. -/
theorem ensures_lastRoute (ts : List Tree) (route : Option String) :
    Ensures (lastRoute s ts route) fun last =>
      ((ts.filter isDecorator).getLast? = none → last = route) ∧
        ∀ d, (ts.filter isDecorator).getLast? = some d → decoratorRoute s d = .ok last := by
  -- the route so far is arbitrary, since every decorator replaces it
  induction ts generalizing route with
  | nil => exact .ok ⟨fun _ => rfl, fun d hd => by cases hd⟩
  | cons c ts ih =>
    rw [lastRoute]
    split
    · next hc =>
      refine .read fun own hown last hlast => ?_
      obtain ⟨hnone, hsome⟩ := ih own last hlast
      rw [filter_cons_of_pos (p := isDecorator) hc, getLast?_cons]
      refine ⟨fun h => absurd h (by simp), fun d hd => ?_⟩
      cases hrest : (ts.filter isDecorator).getLast? with
      | none =>
        -- no decorator follows, and the rest keeps what this one gave
        rw [hrest] at hd
        rw [← Option.some.inj hd, hnone hrest]
        exact hown
      | some d' =>
        -- a later one decides
        rw [hrest] at hd
        exact hsome d (hrest.trans hd)
    · next hc =>
      rw [filter_cons_of_neg (p := isDecorator) hc]
      exact ih route

theorem nonEmpty?_eq_some_iff {route : Option String} :
    nonEmpty? route = some r ↔ route = some r ∧ r ≠ "" := by
  simp [nonEmpty?, Option.filter_eq_some_iff]

theorem ensures_lastRoute_children (t : Tree) :
    Ensures (lastRoute s t.children none) fun last => ∀ r,
      nonEmpty? last = some r ↔ LastRegisters s t r := by
  intro last hlast r
  obtain ⟨hnone, hsome⟩ := ensures_lastRoute t.children none last hlast
  rw [nonEmpty?_eq_some_iff]
  constructor
  · rintro ⟨hr, hne⟩
    cases hd : (decorators t).getLast? with
    | none => exact absurd (hr.symm.trans (hnone hd)) (by simp)
    | some d => exact ⟨d, hd, hne, decoratorRoute_eq_some_iff.1 (by rw [hsome d hd, hr])⟩
  · rintro ⟨d, hd, hne, hcall⟩
    have hroute := decoratorRoute_eq_some_iff.2 hcall
    exact ⟨Except.ok.inj ((hsome d hd).symm.trans hroute), hne⟩

/-! ## Accounts of routes

What an emission has of handlers and endpoints is added up as emissions are appended. -/

structure Handler where
  place : Tree
  name : String
  route : Option String

structure Handler.Stands (s : Site) (h : Handler) (n : Node) : Prop where
  kind : n.kind = .function
  name : n.name = h.name
  id : n.id = s.idOf h.name
  loc : n.loc = s.locate h.place

theorem stands_function (name : String) (t : Tree) (traits : Traits) (route : Option String)
    (summary : String) :
    Handler.Stands s ⟨t, name, route⟩ (s.symbol .function name t traits summary) :=
  ⟨rfl, rfl, rfl, rfl⟩

def Handler.edge (s : Site) (h : Handler) (r : String) : Edge :=
  definesEdge (s.idOf h.name) (s.routeEndpoint r h.place).id

/-- The account of an emission. It has the functions of the handlers and, of all endpoints, those of
their routes. Whatever else it defines is a method. -/
structure Serves (s : Site) (handles : Handler → Prop) (e : Emission) : Prop where
  functions : ∀ h, handles h → ∃ n ∈ e.nodes, h.Stands s n
  endpoints : ∀ n, n ∈ e.nodes ∧ n.kind = .endpoint ↔
    ∃ h r, handles h ∧ h.route = some r ∧ n = s.routeEndpoint r h.place
  routes : ∀ h r, handles h → h.route = some r → h.edge s r ∈ e.edges
  defines : ∀ d ∈ e.edges, d.relation = .defines →
    (∃ h r, handles h ∧ h.route = some r ∧ d = h.edge s r) ∨ ∃ n ∈ e.nodes, n.kind = .method ∧
      n.id = d.target

namespace Serves

variable {P Q : Handler → Prop} {a b e : Emission}

theorem silent (hnodes : ∀ n ∈ e.nodes, n.kind ≠ .endpoint)
    (hedges : ∀ d ∈ e.edges, d.relation = .defines → ∃ n ∈ e.nodes, n.kind = .method ∧
      n.id = d.target) (hP : ∀ h, ¬ P h) : Serves s P e where
  functions h hh := absurd hh (hP h)
  endpoints n := by
    constructor
    · rintro ⟨hn, hkind⟩
      exact absurd hkind (hnodes n hn)
    · rintro ⟨h, r, hh, -⟩
      exact absurd hh (hP h)
  routes h r hh := absurd hh (hP h)
  defines d hd hrel := .inr (hedges d hd hrel)

theorem nil (hP : ∀ h, ¬ P h) : Serves s P {} :=
  silent (fun _ h => absurd h not_mem_nil) (fun _ h => absurd h not_mem_nil) hP

theorem congr (h : Serves s P e) (hPQ : ∀ x, P x ↔ Q x) : Serves s Q e := by
  rwa [funext fun x => propext (hPQ x)] at h

theorem append (ha : Serves s P a) (hb : Serves s Q b) :
    Serves s (fun h => P h ∨ Q h) (a ++ b) where
  functions h hh := by
    rcases hh with hh | hh
    · obtain ⟨n, hn, hstands⟩ := ha.functions h hh
      exact ⟨n, mem_append_left _ hn, hstands⟩
    · obtain ⟨n, hn, hstands⟩ := hb.functions h hh
      exact ⟨n, mem_append_right _ hn, hstands⟩
  endpoints n := by
    rw [Emission.append_nodes, mem_append, or_and_right, ha.endpoints, hb.endpoints]
    simp only [or_and_right, exists_or]
  routes h r hh hr := by
    rcases hh with hh | hh
    · exact mem_append_left _ (ha.routes h r hh hr)
    · exact mem_append_right _ (hb.routes h r hh hr)
  defines d hd hrel := by
    rcases mem_append.1 hd with hd | hd
    · rcases ha.defines d hd hrel with ⟨h, r, hh, hr, rfl⟩ | ⟨n, hn, hmethod⟩
      · exact .inl ⟨h, r, .inl hh, hr, rfl⟩
      · exact .inr ⟨n, mem_append_left _ hn, hmethod⟩
    · rcases hb.defines d hd hrel with ⟨h, r, hh, hr, rfl⟩ | ⟨n, hn, hmethod⟩
      · exact .inl ⟨h, r, .inr hh, hr, rfl⟩
      · exact .inr ⟨n, mem_append_right _ hn, hmethod⟩

theorem gather {α : Type} {emit : α → Reads Emission} {handles : α → Handler → Prop}
    {items : List α} (h : ∀ a ∈ items, Ensures (emit a) (Serves s (handles a))) :
    Ensures (Emission.gather emit items) (Serves s fun x => ∃ a ∈ items, handles a x) := by
  induction items with
  | nil => exact .ok (nil fun x hx => by simp at hx)
  | cons a rest ih =>
    refine .bind (h a mem_cons_self) fun first hfirst => ?_
    refine .bind (ih fun b hb => h b (mem_cons_of_mem a hb)) fun others hothers => .pure ?_
    exact (hfirst.append hothers).congr fun x => by simp

theorem append_silent (ha : Serves s P a) (hb : Serves s (fun _ => False) b) :
    Serves s P (a ++ b) :=
  (ha.append hb).congr fun x => by simp

theorem gather_silent {α : Type} {emit : α → Reads Emission} {items : List α}
    (h : ∀ a ∈ items, Ensures (emit a) (Serves s fun _ => False)) :
    Ensures (Emission.gather emit items) (Serves s fun _ => False) := by
  intro e he
  exact (gather h e he).congr fun x => by simp

theorem forget (h : Serves s P e) (hP : ∀ x, P x → x.route = none) :
    Serves s (fun _ => False) e := by
  have hnone (x : Handler) (r : String) (hx : P x) : x.route ≠ some r := by
    rw [hP x hx]
    simp
  refine silent (fun n hn hkind => ?_) (fun d hd hrel => ?_) fun _ h => h
  · obtain ⟨x, r, hx, hr, -⟩ := (h.endpoints n).1 ⟨hn, hkind⟩
    exact hnone x r hx hr
  · rcases h.defines d hd hrel with ⟨x, r, hx, hr, -⟩ | hmethod
    · exact absurd hr (hnone x r hx)
    · exact hmethod

variable {n : Node}

theorem ofNode (hn : n.kind ≠ .endpoint) : Serves s (fun _ => False) (.ofNode n) :=
  silent (by simpa [Emission.ofNode] using hn) (fun _ h => absurd h not_mem_nil) fun _ h => h

theorem ofImport {target context : String} :
    Serves s (fun _ => False) (.ofEdge (s.importEdge target context)) :=
  silent (fun _ h => absurd h not_mem_nil) (by simp [Emission.ofEdge, Site.importEdge]) fun _ h => h

theorem ofCalls (he : OnlyCalls e) : Serves s (fun _ => False) e :=
  silent (by simp [he.nodes]) (fun d hd hrel => absurd (hrel.symm.trans (he.calls d hd)) (by simp))
    fun _ h => h

theorem ofMember {source : String} (hn : n.kind = .method) :
    Serves s (fun _ => False) { nodes := [n], edges := [definesEdge source n.id] } :=
  silent (by simp [hn]) (by simp [definesEdge, hn]) fun _ h => h

theorem withComments {kinds : List String} (he : Serves s P e) :
    Ensures (withComments s kinds e) (Serves s P) := by
  intro e' hrun
  obtain ⟨found, hfound, rfl⟩ := ensures_withComments s kinds e e' hrun
  refine he.append_silent (silent (fun n hn => ?_) (fun _ h => absurd h not_mem_nil) fun _ h => h)
  rw [hfound n hn]
  simp

theorem ofHandler {h : Handler} {calls : Emission} (hn : h.Stands s n) (hcalls : OnlyCalls calls) :
    Serves s (fun x => x = h) (.ofNode n ++ calls ++ routeEmission s n.id h.place h.route) where
  functions x hx := ⟨n, by simp [Emission.ofNode], hx ▸ hn⟩
  endpoints m := by
    simp only [Emission.append_nodes, hcalls.nodes, Emission.ofNode, append_nil, mem_append,
      mem_singleton, mem_nodes_routeEmission_iff]
    constructor
    · rintro ⟨rfl | ⟨r, hr, rfl⟩, hkind⟩
      · exact absurd (hn.kind.symm.trans hkind) (by simp)
      · exact ⟨h, r, rfl, hr, rfl⟩
    · rintro ⟨x, r, rfl, hr, rfl⟩
      exact ⟨.inr ⟨r, hr, rfl⟩, rfl⟩
  routes x r hx hr := by
    rw [hx] at hr ⊢
    rw [Handler.edge, ← hn.id]
    exact mem_append_right _ (mem_edges_routeEmission_iff.2 ⟨r, hr, rfl⟩)
  defines d hd hrel := by
    rcases mem_append.1 hd with hd | hd
    · exact absurd (hrel.symm.trans (hcalls.calls d hd)) (by simp)
    · obtain ⟨r, hr, rfl⟩ := mem_edges_routeEmission_iff.1 hd
      rw [hn.id]
      exact .inl ⟨h, r, rfl, hr, rfl⟩

end Serves

/-! ## The statements of a file

One lemma for each statement. Only a decorated function has a route. -/

def Named (s : Site) (f : Tree) (name : String) : Prop :=
  s.parsed.childText f "identifier" = .ok name ∧ name ≠ ""

structure Decorates (s : Site) (t f : Tree) (name : String) : Prop where
  kind : t.kind = "decorated_definition"
  function : t.child? "function_definition" = some f
  named : Named s f name

/-- A statement decorates the function of a handler, and its last decorator registers the handler's
route. -/
structure Handles (s : Site) (t : Tree) (h : Handler) : Prop where
  decorates : Decorates s t h.place h.name
  route : ∀ r, h.route = some r ↔ LastRegisters s t r

theorem serves_importStatement (t : Tree) :
    Ensures (importStatement s t) (Serves s fun _ => False) := by
  refine Serves.gather_silent fun c _ => ?_
  split
  · exact .named (.nil fun _ h => h) fun name => .pure .ofImport
  · exact .pure (.nil fun _ h => h)

theorem serves_fromImport (t : Tree) : Ensures (fromImport s t) (Serves s fun _ => False) := by
  refine .after fun parts => ?_
  dsimp only
  split
  · exact .pure (.nil fun _ h => h)
  · exact .pure .ofImport

theorem serves_method (className classId : String) (t : Tree) :
    Ensures (method s className classId t) (Serves s fun _ => False) := by
  refine .named (.nil fun _ h => h) fun name => ?_
  refine .after fun parameters => .after fun returns => ?_
  exact .bind (OnlyCalls.ofBody s _ _ _) fun calls hcalls =>
    .pure ((Serves.ofMember rfl).append_silent (.ofCalls hcalls))

theorem serves_classDefinition (t : Tree) :
    Ensures (classDefinition s t) (Serves s fun _ => False) := by
  refine .named (.nil fun _ h => h) fun name => ?_
  exact .bind (Serves.gather_silent fun m _ => serves_method _ _ m) fun methods hmethods =>
    .pure ((Serves.ofNode (by simp [Site.symbol])).append_silent hmethods)

theorem serves_function (route : Option String) (t : Tree) : Ensures (function s route t)
    (Serves s fun h => h.place = t ∧ Named s t h.name ∧ h.route = nonEmpty? route) := by
  refine .read fun name hname => ?_
  split
  · next hempty =>
    -- no handler has the empty name
    refine .pure (.nil ?_)
    rintro h ⟨-, ⟨hok, hne⟩, -⟩
    rw [hname] at hok
    exact hne (by simpa [← Except.ok.inj hok] using hempty)
  · next hne =>
    refine .after fun parameters => .after fun returns => ?_
    refine .bind (OnlyCalls.ofBody s _ _ _) fun calls hcalls => .pure ?_
    refine (Serves.ofHandler (stands_function name t _ (nonEmpty? route) _) hcalls).congr ?_
    rintro ⟨place, name', route'⟩
    simp only [Handler.mk.injEq, Named, hname, Except.ok.injEq]
    constructor
    · rintro ⟨rfl, rfl, rfl⟩
      exact ⟨rfl, ⟨rfl, by simpa using hne⟩, rfl⟩
    · rintro ⟨rfl, ⟨rfl, -⟩, rfl⟩
      exact ⟨rfl, rfl, rfl⟩

theorem serves_decorated {t : Tree} (hkind : t.kind = "decorated_definition") :
    Ensures (decorated s t) (Serves s (Handles s t)) := by
  refine .bind (ensures_lastRoute_children t) fun route hroute => ?_
  split
  · next f hf =>
    refine fun e he => (serves_function route f e he).congr ?_
    rintro ⟨place, name, route'⟩
    constructor
    · rintro ⟨rfl, hnamed, rfl⟩
      exact ⟨⟨hkind, hf, hnamed⟩, hroute⟩
    · intro h
      have hplace : f = place := Option.some.inj (hf.symm.trans h.decorates.function)
      refine ⟨hplace.symm, hplace ▸ h.decorates.named, Option.ext fun r => ?_⟩
      rw [hroute r]
      exact h.route r
  · next c hf hc =>
    -- a class takes no route from its decorators
    refine fun e he => (serves_classDefinition c e he).congr fun h => ?_
    exact iff_of_false id fun hh => absurd (hf.symm.trans hh.decorates.function) (by simp)
  · next hf hc =>
    exact .pure (.nil fun h hh => absurd (hf.symm.trans hh.decorates.function) (by simp))

theorem serves_statement (t : Tree) : Ensures (statement s t) (Serves s (Handles s t)) := by
  -- only a decorated definition is a handler
  have hother {e : Emission} {kind : String} (ht : t.kind = kind)
      (hne : kind ≠ "decorated_definition")
      (he : Serves s (fun _ => False) e) : Serves s (Handles s t) e :=
    he.congr fun h => iff_of_false id fun hh => hne (ht.symm.trans hh.decorates.kind)
  unfold statement
  split
  · next ht => exact fun e he => hother ht (by decide) (serves_importStatement t e he)
  · next ht => exact fun e he => hother ht (by decide) (serves_fromImport t e he)
  · next ht => exact fun e he => hother ht (by decide) (serves_classDefinition t e he)
  · next ht =>
    refine fun e he => hother ht (by decide) ((serves_function none t e he).forget ?_)
    rintro h ⟨-, -, hroute⟩
    exact hroute
  · next ht => exact serves_decorated ht
  · next ht => exact .ok (.nil fun h hh => ht hh.decorates.kind)

theorem serves_extract :
    Ensures (extract s) (Serves s fun h => ∃ t ∈ s.parsed.root.children, Handles s t h) :=
  .bind (Serves.gather fun t _ => serves_statement t) fun _ he => he.withComments

/-! ## Reading ends

In a legible file nothing that is read fails. One lemma for each reader, from the leaves up. -/

section Returning

variable {t : Tree} (hs : s.Legible)

include hs

theorem returns_childText? (ht : s.Holds t) (kind : String) :
    Returns (s.parsed.childText? t kind) := by
  unfold Parsed.childText?
  split
  · next c hc =>
    split
    · exact .ok _
    · exact (hs c (ht.child hc)).map _
  · exact .ok _

theorem returns_parameterNames (ht : s.Holds t) : Returns (parameterNames s t) := by
  have hentry (c : Tree) (hc : s.Holds c) : Returns (parameterName s c) := by
    unfold parameterName
    split
    · refine .bind (returns_childText? hs hc _) fun name => ?_
      split
      · exact .pure _
      · exact returns_childText? hs hc _
    · split
      · split
        · exact .ok _
        · exact (hs c hc).map _
      · split
        · exact returns_childText? hs hc _
        · exact .ok _
  unfold parameterNames
  split
  · next list hlist =>
    have hmem : list ∈ t.children := by
      rcases Option.or_eq_some_iff.1 hlist with h | ⟨-, h⟩
      · exact Tree.child?_mem h
      · rcases Option.or_eq_some_iff.1 h with h | ⟨-, h⟩
        · exact Tree.child?_mem h
        · exact Tree.child?_mem h
    exact .collect fun c hc => hentry c ((ht.of_mem_children hmem).of_mem_children hc)
  · exact .ok _

theorem returns_returnType (ht : s.Holds t) : Returns (returnType s t) := by
  unfold returnType
  split
  · next c hc =>
    have hmem : c ∈ t.children := (dropWhile_sublist _).subset (mem_of_find?_eq_some hc)
    exact (hs c (ht.of_mem_children hmem)).map _
  · exact .ok _

theorem returns_importStatement (ht : s.Holds t) : Returns (importStatement s t) := by
  refine .gather fun c hc => ?_
  split
  · refine .bind (hs c (ht.of_mem_children hc)) fun name => ?_
    split
    · exact .pure _
    · exact .pure _
  · exact .pure _

theorem returns_fromParts {ts : List Tree} (hts : ∀ c ∈ ts, s.Holds c)
    (moduleName : String) (names : List String) : Returns (fromParts s ts moduleName names) := by
  induction ts generalizing moduleName names with
  | nil => exact .ok _
  | cons c ts ih =>
    have hrest := ih fun b hb => hts b (mem_cons_of_mem _ hb)
    have htext := hs c (hts c mem_cons_self)
    rw [fromParts]
    split
    · refine .bind htext fun text => ?_
      split
      · exact hrest _ _
      · exact hrest _ _
    · split
      · exact .bind htext fun text => hrest _ _
      · exact hrest _ _

theorem returns_fromImport (ht : s.Holds t) : Returns (fromImport s t) := by
  refine .bind (returns_fromParts hs (fun c hc => ht.of_mem_children hc) _ _) fun parts => ?_
  dsimp only
  split
  · exact .pure _
  · exact .pure _

theorem returns_method (className classId : String) (ht : s.Holds t) :
    Returns (method s className classId t) := by
  refine .named (.childText hs ht _) fun name => ?_
  refine .bind (returns_parameterNames hs ht) fun parameters => .bind (returns_returnType hs ht)
    fun returns => ?_
  exact .bind (.calls hs ht _ _ _) fun calls => .pure _

theorem returns_classDefinition (ht : s.Holds t) : Returns (classDefinition s t) := by
  refine .named (.childText hs ht _) fun name => ?_
  refine .bind (.gather fun m hm => returns_method hs _ _ ?_) fun methods => .pure _
  split at hm
  · next body hbody =>
    obtain ⟨member, hmember, hfun⟩ := mem_filterMap.1 hm
    exact holds_memberFunction ((ht.child hbody).of_mem_children hmember) hfun
  · cases hm

theorem returns_function (route : Option String) (ht : s.Holds t) :
    Returns (function s route t) := by
  refine .named (.childText hs ht _) fun name => ?_
  refine .bind (returns_parameterNames hs ht) fun parameters => .bind (returns_returnType hs ht)
    fun returns => ?_
  exact .bind (.calls hs ht _ _ _) fun calls => .pure _

theorem returns_firstStringArgument (ht : s.Holds t) : Returns (firstStringArgument s t) := by
  unfold firstStringArgument
  split
  · next literal hliteral =>
    obtain ⟨arguments, harguments, hstring⟩ := Option.bind_eq_some_iff.1 hliteral
    exact .bind (hs literal ((ht.child harguments).child hstring)) fun text => .pure _
  · exact .ok _

theorem returns_decoratorRoute (ht : s.Holds t) : Returns (decoratorRoute s t) := by
  unfold decoratorRoute
  split
  · exact .pure _
  · next call hcall =>
    have hcallHeld := ht.child hcall
    split
    · exact .pure _
    · next callee hcallee =>
      have hcalleeHeld := hcallHeld.of_mem_children (mem_of_mem_head? hcallee)
      split
      · exact .pure _
      · split
        · next object method hobject hmethod =>
          split
          · exact .pure _
          · refine .bind (hs object (hcalleeHeld.child hobject)) fun o => ?_
            refine .bind (hs method (hcalleeHeld.of_mem_children (mem_of_getLast? hmethod)))
              fun m => ?_
            dsimp only
            split
            · exact returns_firstStringArgument hs hcallHeld
            · exact .pure _
        · exact .pure _

theorem returns_lastRoute {ts : List Tree} (hts : ∀ c ∈ ts, s.Holds c)
    (route : Option String) : Returns (lastRoute s ts route) := by
  induction ts generalizing route with
  | nil => exact .ok _
  | cons c ts ih =>
    have hrest := ih fun b hb => hts b (mem_cons_of_mem _ hb)
    rw [lastRoute]
    split
    · exact .bind (returns_decoratorRoute hs (hts c mem_cons_self)) hrest
    · exact hrest route

theorem returns_decorated (ht : s.Holds t) : Returns (decorated s t) := by
  refine .bind (returns_lastRoute hs (fun c hc => ht.of_mem_children hc) none) fun route => ?_
  split
  · next f hf => exact returns_function hs route (ht.child hf)
  · next c hf hc => exact returns_classDefinition hs (ht.child hc)
  · exact .pure _

theorem returns_statement (ht : s.Holds t) : Returns (statement s t) := by
  unfold statement
  split
  · exact returns_importStatement hs ht
  · exact returns_fromImport hs ht
  · exact returns_classDefinition hs ht
  · exact returns_function hs none ht
  · exact returns_decorated hs ht
  · exact .ok _

theorem returns_extract : Returns (extract s) :=
  .bind (.gather fun _ ht => returns_statement hs (Site.Holds.root.of_mem_children ht)) fun e =>
    .withComments hs _ e

end Returning

theorem LastRegisters.unique {t : Tree} {r' : String} (h : LastRegisters s t r)
    (h' : LastRegisters s t r') : r = r' := by
  obtain ⟨d, hd, -, hcall⟩ := h
  obtain ⟨d', hd', -, hcall'⟩ := h'
  rw [Option.some.inj (hd.symm.trans hd')] at hcall
  have hroute := decoratorRoute_eq_some_iff.2 hcall
  rw [decoratorRoute_eq_some_iff.2 hcall'] at hroute
  exact (Option.some.inj (Except.ok.inj hroute)).symm

theorem Decorates.handles {t : Tree} (h : Decorates s t f name) (hr : LastRegisters s t r) :
    Handles s t ⟨f, name, some r⟩ := by
  refine ⟨h, fun r' => ⟨fun heq => ?_, fun hr' => congrArg some (hr.unique hr')⟩⟩
  rwa [← Option.some.inj heq]

theorem Decorates.exists_handles {t : Tree} (h : Decorates s t f name) :
    ∃ route, Handles s t ⟨f, name, route⟩ := by
  by_cases hlast : ∃ r, LastRegisters s t r
  · obtain ⟨r, hr⟩ := hlast
    exact ⟨some r, h.handles hr⟩
  · exact ⟨none, h, fun r => iff_of_false (by simp) fun hr => hlast ⟨r, hr⟩⟩

/-- A function has the endpoint of a route: there is an endpoint of that name, and an edge to it
from the node of the function. -/
def Served (s : Site) (em : Emission) (f : Tree) (name r : String) : Prop :=
  ∃ m ∈ em.nodes, m.kind = .function ∧ m.name = name ∧ m.loc = s.locate f ∧
    ∃ n ∈ em.nodes, n.kind = .endpoint ∧ n.name = r ∧ definesEdge m.id n.id ∈ em.edges

/-- Identifiers tell the symbols of a file apart: those with one identifier have one name, and if
one of them is an endpoint, all are. -/
def Distinguished (nodes : List Node) : Prop :=
  ∀ m ∈ nodes, ∀ n ∈ nodes, m.kind ≠ .comment → n.kind ≠ .comment → m.id = n.id →
    m.name = n.name ∧ (m.kind = .endpoint ↔ n.kind = .endpoint)

instance (nodes : List Node) : Decidable (Distinguished nodes) :=
  inferInstanceAs (Decidable (∀ m ∈ nodes, ∀ n ∈ nodes, m.kind ≠ .comment → n.kind ≠ .comment →
    m.id = n.id → m.name = n.name ∧ (m.kind = .endpoint ↔ n.kind = .endpoint)))

section Serving

variable {P : Handler → Prop} {em : Emission}

theorem Serves.served {h : Handler} (hem : Serves s P em) (hh : P h) (hr : h.route = some r)
    (hf : ∃ route, P ⟨f, h.name, route⟩) : Served s em f h.name r := by
  obtain ⟨route, hfun⟩ := hf
  obtain ⟨m, hm, hstands⟩ := hem.functions _ hfun
  obtain ⟨hn, hkind⟩ := (hem.endpoints _).2 ⟨h, r, hh, hr, rfl⟩
  refine ⟨m, hm, hstands.kind, hstands.name, hstands.loc, _, hn, hkind, rfl, ?_⟩
  rw [hstands.id]
  exact hem.routes h r hh hr

theorem Serves.exists_handler (hem : Serves s P em) (hids : Distinguished em.nodes)
    (h : Served s em f name r) :
    ∃ x, P x ∧ x.name = name ∧ x.route = some r := by
  obtain ⟨m, hm, hfunction, rfl, -, n, hn, hendpoint, rfl, hedge⟩ := h
  have hsymbols : m.kind ≠ .comment ∧ n.kind ≠ .comment := by simp [hfunction, hendpoint]
  rcases hem.defines _ hedge rfl with ⟨x, r, hx, hr, hown⟩ | ⟨k, hk, hmethod, hid⟩
  · -- both ends have the identifiers of a handler, hence its name and its route
    obtain ⟨m', hm', hstands⟩ := hem.functions x hx
    obtain ⟨hn', -⟩ := (hem.endpoints _).2 ⟨x, r, hx, hr, rfl⟩
    have hsource : m.id = m'.id := (congrArg Edge.source hown).trans hstands.id.symm
    have htarget : n.id = (s.routeEndpoint r x.place).id := congrArg Edge.target hown
    have hname := (hids m hm m' hm' hsymbols.1 (by simp [hstands.kind]) hsource).1
    have hroute := (hids n hn _ hn' hsymbols.2 (by simp [Site.routeEndpoint]) htarget).1
    refine ⟨x, hx, hstands.name.symm.trans hname.symm, ?_⟩
    rw [hr, hroute]
    rfl
  · -- a method has another identifier than an endpoint
    have hkinds := (hids k hk n hn (by simp [hmethod]) hsymbols.2 hid).2.2 hendpoint
    exact absurd (hmethod.symm.trans hkinds) (by simp)

end Serving

/-- **Which routes are served.** A file in which every span is text is read to its end. Whenever a
file is, its endpoints are those of the decorated functions whose last decorator registers a route,
and such a function always has its endpoint. If identifiers tell the symbols apart, a decorated
function has the endpoint of a route exactly if the route is registered by the last decorator of a
function of its name. So every registered route is served exactly if each is registered by a last
decorator. -/
theorem routes_served_iff (s : Site) :
    (s.Legible → Returns (extract s)) ∧
    ∀ em, extract s = .ok em →
      (∀ n, n ∈ em.nodes ∧ n.kind = .endpoint ↔
        ∃ t ∈ s.parsed.root.children, ∃ f name r, Decorates s t f name ∧ LastRegisters s t r ∧
          n = s.routeEndpoint r f) ∧
      (∀ t ∈ s.parsed.root.children, ∀ f name r, Decorates s t f name → LastRegisters s t r →
        Served s em f name r) ∧
      (Distinguished em.nodes →
        (∀ t ∈ s.parsed.root.children, ∀ f name r, Decorates s t f name →
          (Served s em f name r ↔
            ∃ t' ∈ s.parsed.root.children, ∃ f', Decorates s t' f' name ∧ LastRegisters s t' r)) ∧
        ((∀ t ∈ s.parsed.root.children, ∀ f name, Decorates s t f name →
            ∀ d ∈ decorators t, ∀ r, Registers s d r → Served s em f name r) ↔
          ∀ t ∈ s.parsed.root.children, ∀ f name, Decorates s t f name →
            ∀ d ∈ decorators t, ∀ r, Registers s d r →
              ∃ t' ∈ s.parsed.root.children, ∃ f', Decorates s t' f' name ∧
                LastRegisters s t' r)) := by
  refine ⟨returns_extract, fun em hem => ?_⟩
  have haccount := serves_extract em hem
  -- functions of one name share their identifier, so the endpoint of one is an endpoint of all
  have hserved (t : Tree) (ht : t ∈ s.parsed.root.children) (f : Tree) (name r : String)
      (h : Decorates s t f name)
      (t' : Tree) (ht' : t' ∈ s.parsed.root.children) (f' : Tree) (h' : Decorates s t' f' name)
      (hr : LastRegisters s t' r) : Served s em f name r := by
    obtain ⟨route, hown⟩ := h.exists_handles
    exact haccount.served (h := ⟨f', name, some r⟩) ⟨t', ht', h'.handles hr⟩ rfl
      ⟨route, t, ht, hown⟩
  refine ⟨fun n => ?_, fun t ht f name r h hr => hserved t ht f name r h t ht f h hr,
    fun hids => ?_⟩
  · rw [haccount.endpoints]
    constructor
    · rintro ⟨h, r, ⟨t, ht, hh⟩, hr, rfl⟩
      exact ⟨t, ht, h.place, h.name, r, hh.decorates, (hh.route r).1 hr, rfl⟩
    · rintro ⟨t, ht, f, name, r, h, hr, rfl⟩
      exact ⟨⟨f, name, some r⟩, r, ⟨t, ht, h.handles hr⟩, rfl, rfl⟩
  · have hiff (t : Tree) (ht : t ∈ s.parsed.root.children) (f : Tree) (name r : String)
        (h : Decorates s t f name) :
        Served s em f name r ↔
          ∃ t' ∈ s.parsed.root.children, ∃ f', Decorates s t' f' name ∧ LastRegisters s t' r := by
      constructor
      · intro hs
        obtain ⟨x, ⟨t', ht', hx⟩, rfl, hr⟩ := haccount.exists_handler hids hs
        exact ⟨t', ht', x.place, hx.decorates, (hx.route r).1 hr⟩
      · rintro ⟨t', ht', f', h', hr⟩
        exact hserved t ht f name r h t' ht' f' h' hr
    refine ⟨hiff, ?_⟩
    constructor
    · exact fun hall t ht f name h d hd r hr => (hiff t ht f name r h).1
        (hall t ht f name h d hd r hr)
    · exact fun hall t ht f name h d hd r hr => (hiff t ht f name r h).2
        (hall t ht f name h d hd r hr)

def routeDecorator (start point stop : Nat) : Tree :=
  .node "decorator" start stop [.node "call" (start + 1) stop
    [.node "attribute" (start + 1) point
      [.node "identifier" (start + 1) (start + 4) [], .node "identifier" (start + 5) point []],
     .node "argument_list" point stop [.node "string" (point + 1) (stop - 1) []]]]

def plainDecorator (start stop : Nat) : Tree :=
  .node "decorator" start stop [.node "identifier" (start + 1) stop []]

def usersFunction : Tree :=
  .node "function_definition" 29 50 [.node "identifier" 33 38 [], .node "block" 46 50 []]

def cartsFunction : Tree :=
  .node "function_definition" 78 99 [.node "identifier" 82 87 [], .node "block" 95 99 []]

def usersDefinition : Tree :=
  .node "decorated_definition" 0 50 [routeDecorator 0 10 20, plainDecorator 21 28, usersFunction]

def cartsDefinition : Tree :=
  .node "decorated_definition" 51 99 [plainDecorator 51 58, routeDecorator 59 67 77, cartsFunction]

def shopSite : Site where
  file := "shop.py"
  language := "python"
  parsed :=
    { bytes := Text.Utf8.encode
        "@app.route('/users')\n@cached\ndef users():\n    pass\n@cached\n@app.get('/carts')\ndef carts():\n    pass"
      root := .node "module" 0 99 [usersDefinition, cartsDefinition] }

theorem legible_shopSite : shopSite.Legible :=
  Site.legible_of_all (by decide +kernel)

theorem registers_shopSite : Registers shopSite (routeDecorator 0 10 20) "/users" ∧
    Registers shopSite (routeDecorator 59 67 77) "/carts" := by
  have hroutes :
      (decoratorRoute shopSite (routeDecorator 0 10 20)).toOption = some (some "/users") ∧
      (decoratorRoute shopSite (routeDecorator 59 67 77)).toOption = some (some "/carts") := by
    decide +kernel
  exact ⟨⟨by decide, decoratorRoute_eq_some_iff.1 (eq_ok_of_toOption hroutes.1)⟩,
    by decide, decoratorRoute_eq_some_iff.1 (eq_ok_of_toOption hroutes.2)⟩

theorem decorates_shopSite : Decorates shopSite usersDefinition usersFunction "users" ∧
    Decorates shopSite cartsDefinition cartsFunction "carts" := by
  have hnames : (shopSite.parsed.childText usersFunction "identifier").toOption = some "users" ∧
      (shopSite.parsed.childText cartsFunction "identifier").toOption = some "carts" := by
    decide +kernel
  exact ⟨⟨rfl, rfl, eq_ok_of_toOption hnames.1, by decide⟩, rfl, rfl,
    eq_ok_of_toOption hnames.2, by decide⟩

theorem routes_served_iff_shopSite :
    shopSite.Legible ∧ ∃ em, extract shopSite = .ok em ∧ Distinguished em.nodes ∧
      Served shopSite em cartsFunction "carts" "/carts" ∧
      routeDecorator 0 10 20 ∈ decorators usersDefinition ∧
      Registers shopSite (routeDecorator 0 10 20) "/users" ∧
      ¬ Served shopSite em usersFunction "users" "/users" := by
  obtain ⟨hreturns, hrun⟩ := routes_served_iff shopSite
  obtain ⟨em, hem⟩ := hreturns legible_shopSite
  have hids : Distinguished em.nodes := by
    have hall :
        (extract shopSite).toOption.all (fun em => decide (Distinguished em.nodes)) = true := by
      decide +kernel
    rw [hem] at hall
    exact of_decide_eq_true hall
  obtain ⟨-, hlast, hexact⟩ := hrun em hem
  obtain ⟨husers, hcarts⟩ := decorates_shopSite
  have hchildren : shopSite.parsed.root.children = [usersDefinition, cartsDefinition] := rfl
  refine ⟨legible_shopSite, em, hem, hids, ?_, mem_cons_self, registers_shopSite.1,
    fun hserved => ?_⟩
  · exact hlast cartsDefinition (by simp [hchildren]) _ _ _ hcarts ⟨_, rfl, registers_shopSite.2⟩
  · obtain ⟨t, ht, f, hf, d, hd, hregisters⟩ :=
      ((hexact hids).1 usersDefinition (by simp [hchildren]) _ _ _ husers).1 hserved
    obtain rfl | rfl : t = usersDefinition ∨ t = cartsDefinition := by simpa [hchildren] using ht
    · -- the last decorator of the first function is no call
      obtain ⟨call, hcall, -⟩ := hregisters.2
      rw [← Option.some.inj hd] at hcall
      cases hcall
    · -- the second function has another name
      have hsame : cartsFunction = f := Option.some.inj (hcarts.function.symm.trans hf.function)
      have hname := hf.named.1
      rw [← hsame, hcarts.named.1] at hname
      exact absurd (Except.ok.inj hname) (by decide)

end CodeAtlas.Extract.Python
