import CodeAtlas.Proofs.Reading
import CodeAtlas.Proofs.RecordedCalls

/-!
# Reading order

A tree node has an address, the way down to it from the root. Addresses are compared like words in a
dictionary, so a tree node comes before everything below it, and what is below it before its next
sibling. A walk that reads a tree in this order, and each tree node once, is said to read `InOrder`.
-/

namespace CodeAtlas.Source.Tree

open List

/-! ## Addresses

The address of a tree node is the way to it from the root, child by child. -/

/-- The tree node at an address. -/
def subtree? (t : Tree) : List Nat → Option Tree
  | [] => some t
  | i :: rest => t.children[i]?.bind fun c => c.subtree? rest

@[simp] theorem subtree?_nil (t : Tree) : t.subtree? [] = some t := rfl

theorem subtree?_cons (t : Tree) (i : Nat) (rest : List Nat) :
    t.subtree? (i :: rest) = t.children[i]?.bind fun c => c.subtree? rest := rfl

variable {i : Nat} {β : Type} {R : Tree → β → Prop}

theorem subtree?_of_child {t c : Tree} (hc : t.children[i]? = some c) (rest : List Nat) :
    t.subtree? (i :: rest) = c.subtree? rest := by
  rw [subtree?_cons, hc, Option.bind_some]

mutual

def addresses : Tree → List (List Nat)
  | .node _ _ _ cs => [] :: addressesFrom 0 cs

def addressesFrom (i : Nat) : List Tree → List (List Nat)
  | [] => []
  | t :: ts => t.addresses.map (i :: ·) ++ addressesFrom (i + 1) ts

end

theorem child_of_drop {t c : Tree} {rest : List Tree} (h : t.children.drop i = c :: rest) :
    t.children[i]? = some c ∧ t.children.drop (i + 1) = rest := by
  constructor
  · have hhead := congrArg List.head? h
    rwa [head?_drop, head?_cons] at hhead
  · rw [← drop_drop, h, drop_one, tail_cons]

theorem exists_cons_of_mem_addressesFrom {ts : List Tree} {p : List Nat}
    (hp : p ∈ addressesFrom i ts) :
    ∃ j rest, p = j :: rest ∧ i ≤ j := by
  induction ts generalizing i with
  | nil => simp [addressesFrom] at hp
  | cons t ts ih =>
    rw [addressesFrom, mem_append, mem_map] at hp
    rcases hp with ⟨rest, -, rfl⟩ | hp
    · exact ⟨i, rest, rfl, Nat.le_refl i⟩
    · obtain ⟨j, rest, rfl, hj⟩ := ih hp
      exact ⟨j, rest, rfl, Nat.le_of_succ_le hj⟩

mutual

/-- Addresses grow along the listing. Induction on the tree. -/
theorem pairwise_addresses : ∀ t : Tree, t.addresses.Pairwise (· < ·)
  | .node kind start stop cs => by
    rw [addresses, pairwise_cons]
    refine ⟨fun p hp => ?_, pairwise_addressesFrom cs 0⟩
    obtain ⟨j, rest, rfl, -⟩ := exists_cons_of_mem_addressesFrom hp
    exact nil_lt_cons j rest

theorem pairwise_addressesFrom : ∀ (ts : List Tree) (i : Nat), (addressesFrom i ts).Pairwise (· < ·)
  | [], _ => .nil
  | t :: ts, i => by
    rw [addressesFrom, pairwise_append, pairwise_map]
    refine ⟨?_, pairwise_addressesFrom ts (i + 1), ?_⟩
    · refine (pairwise_addresses t).imp fun hlt => ?_
      exact cons_lt_cons_iff.2 (.inr ⟨rfl, hlt⟩)
    · intro p hp q hq
      obtain ⟨rest, -, rfl⟩ := mem_map.1 hp
      obtain ⟨j, rest', rfl, hj⟩ := exists_cons_of_mem_addressesFrom hq
      exact cons_lt_cons_iff.2 (.inl hj)

end

mutual

/-- The listing of a tree goes along its addresses. Induction on the tree. -/
theorem preorder_eq_filterMap : ∀ t : Tree, t.preorder = t.addresses.filterMap t.subtree?
  | .node kind start stop cs => by
    rw [preorder, addresses, filterMap_cons_some (subtree?_nil _)]
    exact congrArg _ (preorderAll_eq_filterMap cs 0 rfl)

theorem preorderAll_eq_filterMap {t : Tree} : ∀ (ts : List Tree) (i : Nat), t.children.drop i = ts →
    preorderAll ts = (addressesFrom i ts).filterMap t.subtree?
  | [], _, _ => rfl
  | c :: ts, i, h => by
    obtain ⟨hc, hrest⟩ := child_of_drop h
    have hchild : t.subtree? ∘ (i :: ·) = c.subtree? := funext (subtree?_of_child hc)
    rw [preorderAll, addressesFrom, filterMap_append, filterMap_map, hchild,
      preorder_eq_filterMap c, preorderAll_eq_filterMap ts (i + 1) hrest]

end

mutual

/-- Every tree node stands at an address of the listing. Induction on the tree. -/
theorem mem_addresses_of_subtree? :
    ∀ (t : Tree) {p : List Nat} {u : Tree}, t.subtree? p = some u → p ∈ t.addresses
  | .node kind start stop cs, p, u, h => by
    rw [addresses]
    cases p with
    | nil => exact mem_cons_self
    | cons i rest =>
      obtain ⟨c, hc, hu⟩ := Option.bind_eq_some_iff.1 h
      refine mem_cons_of_mem _ ?_
      simpa using mem_addressesFrom_of_subtree? cs 0 hc hu

theorem mem_addressesFrom_of_subtree? :
    ∀ (ts : List Tree) (i : Nat) {j : Nat} {rest : List Nat} {c u : Tree},
    ts[j]? = some c → c.subtree? rest = some u → ((i + j) :: rest) ∈ addressesFrom i ts
  | [], _, _, _, _, _, hc, _ => by simp at hc
  | t :: ts, i, 0, rest, c, u, hc, hu => by
    rw [getElem?_cons_zero, Option.some.injEq] at hc
    rw [← hc] at hu
    exact mem_append_left _ (mem_map_of_mem (mem_addresses_of_subtree? t hu))
  | t :: ts, i, j + 1, rest, c, u, hc, hu => by
    have hrest := mem_addressesFrom_of_subtree? ts (i + 1) hc hu
    rw [Nat.add_right_comm] at hrest
    exact mem_append_right _ hrest

end

theorem mem_preorder_of_subtree? {t u : Tree} {p : List Nat} (hu : t.subtree? p = some u) :
    u ∈ t.preorder := by
  rw [preorder_eq_filterMap]
  exact mem_filterMap.2 ⟨p, mem_addresses_of_subtree? t hu, hu⟩

/-- Things are read off a tree in order: they come, one for one, from the tree nodes that satisfy
`P`, which are gone through by growing address. `R` is what a tree node has to do with what is read
off it. -/
def InOrder {β : Type} (t : Tree) (P : Tree → Prop) (R : Tree → β → Prop) (read : List β) : Prop :=
  ∃ places : List (List Nat), places.Pairwise (· < ·) ∧
    (∀ p, p ∈ places ↔ ∃ u, t.subtree? p = some u ∧ P u) ∧
    List.Forall₂ (fun p b => ∃ u, t.subtree? p = some u ∧ R u b) places read

theorem forall₂_filter_filterMap {α : Type} (f : α → Option β) (l : List α) :
    List.Forall₂ (fun a b => f a = some b) (l.filter fun a => (f a).isSome) (l.filterMap f) := by
  induction l with
  | nil => exact .nil
  | cons a l ih =>
    cases ha : f a with
    | none => rwa [filter_cons_of_neg (by simp [ha]), filterMap_cons_none ha]
    | some b =>
      rw [filter_cons_of_pos (by simp [ha]), filterMap_cons_some ha]
      exact .cons ha ih

/-- What is read off the listing of a tree is read in order. -/
theorem inOrder_filterMap {t : Tree} {P : Tree → Prop} {give : Tree → Option β}
    (hP : ∀ u ∈ t.preorder, (give u).isSome ↔ P u) (hR : ∀ u ∈ t.preorder, ∀ b, give u = some b →
      R u b) : t.InOrder P R (t.preorder.filterMap give) := by
  refine ⟨t.addresses.filter fun p => ((t.subtree? p).bind give).isSome, ?_, fun p => ?_, ?_⟩
  · exact (pairwise_addresses t).filter _
  · rw [mem_filter]
    constructor
    · rintro ⟨-, hsome⟩
      obtain ⟨b, hb⟩ := Option.isSome_iff_exists.1 hsome
      obtain ⟨u, hu, hgive⟩ := Option.bind_eq_some_iff.1 hb
      exact ⟨u, hu, (hP u (mem_preorder_of_subtree? hu)).1 (Option.isSome_iff_exists.2 ⟨b, hgive⟩)⟩
    · rintro ⟨u, hu, hPu⟩
      refine ⟨mem_addresses_of_subtree? t hu, ?_⟩
      rw [hu]
      exact (hP u (mem_preorder_of_subtree? hu)).2 hPu
  · have hread := forall₂_filter_filterMap (fun p => (t.subtree? p).bind give) t.addresses
    rw [← filterMap_filterMap, ← preorder_eq_filterMap] at hread
    refine hread.imp fun p b hb => ?_
    obtain ⟨u, hu, hgive⟩ := Option.bind_eq_some_iff.1 hb
    exact ⟨u, hu, hR u (mem_preorder_of_subtree? hu) b hgive⟩

theorem InOrder.imp {t : Tree} {P : Tree → Prop} {R' : Tree → β → Prop} {read : List β}
    (h : t.InOrder P R read)
    (himp : ∀ u ∈ t.preorder, ∀ b, R u b → R' u b) : t.InOrder P R' read := by
  obtain ⟨places, hgrow, hplaces, hread⟩ := h
  refine ⟨places, hgrow, hplaces, hread.imp fun p b => ?_⟩
  rintro ⟨u, hu, hR⟩
  exact ⟨u, hu, himp u (mem_preorder_of_subtree? hu) b hR⟩

def Nested (t : Tree) : Prop :=
  ∀ u ∈ t.preorder, ∀ c ∈ u.children, u.start ≤ c.start ∧ c.stop ≤ u.stop

instance (t : Tree) : Decidable t.Nested :=
  inferInstanceAs (Decidable (∀ u ∈ t.preorder, ∀ c ∈ u.children, u.start ≤ c.start ∧
    c.stop ≤ u.stop))

end CodeAtlas.Source.Tree

namespace CodeAtlas.Text.Utf8

theorem decodeFrom_cons_ne_nil (pos : Nat) (b : UInt8) (rest : List UInt8) :
    decodeFrom pos (b :: rest) ≠ .ok [] := by
  have hcons (c : Char) (others : Except Fault (List Char)) :
      (others >>= fun cs => Pure.pure (c :: cs) : Except Fault (List Char)) ≠ .ok [] := by
    cases others with
    | error fault => exact fun h => by cases h
    | ok cs => exact fun h => by cases h
  have hfail (fault : Fault) : (.error fault : Except Fault (List Char)) ≠ .ok [] :=
    fun h => by cases h
  unfold decodeFrom
  dsimp only
  repeat' split
  all_goals first | exact hcons _ _ | exact hfail _

theorem decode_eq_empty_iff {bytes : List UInt8} : decode bytes = .ok "" ↔ bytes = [] := by
  cases bytes with
  | nil => exact iff_of_true rfl rfl
  | cons b rest =>
    refine iff_of_false (fun h => ?_) (List.cons_ne_nil b rest)
    rw [decode] at h
    cases hchars : decodeFrom 0 (b :: rest) with
    | error fault =>
      rw [hchars] at h
      cases h
    | ok chars =>
      rw [hchars] at h
      have hnil : chars = [] := by simpa [Except.map] using h
      exact decodeFrom_cons_ne_nil 0 b rest (hnil ▸ hchars)

end CodeAtlas.Text.Utf8

namespace CodeAtlas.Source.Parsed

variable {p : Parsed} {t c : Tree}

theorem text_eq_empty_iff : p.text t = .ok "" ↔ p.slice t = [] :=
  Text.Utf8.decode_eq_empty_iff

theorem isEmpty_iff : p.isEmpty t ↔ p.text t = .ok "" := by
  rw [isEmpty, List.isEmpty_iff, text_eq_empty_iff]

theorem text_child_of_empty (hstart : t.start ≤ c.start) (hstop : c.stop ≤ t.stop)
    (ht : p.text t = .ok "") : p.text c = .ok "" := by
  rw [text_eq_empty_iff, slice, List.drop_eq_nil_iff, List.length_take] at ht ⊢
  omega

end CodeAtlas.Source.Parsed

namespace CodeAtlas.Language

open Extract
open Source (Tree)

/-! ## Calls

What a call is, said once for all languages and without the readers. -/

/-- The kind of a call that has the called expression as its first child. -/
def callKind : Language → String
  | .php => "function_call_expression"
  | .python => "call"
  | .csharp => "invocation_expression"
  | .javascript | .typescript | .go => "call_expression"

/-- A tree node is a call in a language, and `text` is how it writes what it calls. PHP has calls of
two further kinds: a method of an object is called by its name, a method of a class by the names of
both. -/
inductive CalleeText (s : Site) : Language → Tree → String → Prop
  | ofHead {l : Language} {t c : Tree} {text : String} (hkind : t.kind = l.callKind)
      (hc : t.children.head? = some c) (htext : s.parsed.text c = .ok text) : CalleeText s l t text
  | ofMember {t c : Tree} {text : String} (hkind : t.kind = "member_call_expression")
      (hc : t.child? "name" = some c)
      (htext : s.parsed.text c = .ok text) : CalleeText s .php t text
  | ofScope {t : Tree} {texts : List String} (hkind : t.kind = "scoped_call_expression")
      (htexts : (t.children.filter fun c => c.kind == "name" || c.kind == "qualified_name").map
        s.parsed.text = texts.map .ok) : CalleeText s .php t (Text.join "::" texts)

/-- A tree node calls `callee`, and the call is worth recording. -/
def Calls (l : Language) (s : Site) (t : Tree) (callee : String) : Prop :=
  ∃ text, CalleeText s l t text ∧ resolveCallee text = some callee

variable {l : Language} {s : Site} {source text callee : String} {t : Tree}

theorem ne_empty_of_resolveCallee (h : resolveCallee text = some callee) : text ≠ "" := by
  rintro rfl
  cases h

theorem orEmpty_eq_iff {r : Reads String} (hne : text ≠ "") : orEmpty r = text ↔ r = .ok text := by
  cases r with
  | error fault => exact iff_of_false hne.symm (fun h => by cases h)
  | ok text' => rw [orEmpty_ok, Except.ok.injEq]

theorem headText_eq_iff {kind : String} (hne : text ≠ "") :
    headText kind s t = text ↔ t.kind = kind ∧ ∃ c, t.children.head? = some c ∧
      s.parsed.text c = .ok text := by
  unfold headText
  by_cases hkind : t.kind = kind
  · rw [if_pos (beq_iff_eq.2 hkind)]
    cases hhead : t.children.head? with
    | none => simp [hne.symm]
    | some c => simp [hkind, orEmpty_eq_iff hne]
  · rw [if_neg (fun h => hkind (beq_iff_eq.1 h))]
    simp [hkind, hne.symm]

theorem calleeText_php_iff (hne : text ≠ "") :
    Php.calleeText s t = .ok text ↔ CalleeText s .php t text := by
  constructor
  · intro h
    unfold Php.calleeText at h
    split at h
    · next hkind =>
      split at h
      · next c hc => exact .ofHead hkind hc h
      · exact absurd (Except.ok.inj h).symm hne
    · next hkind =>
      rw [Source.Parsed.childText] at h
      split at h
      · next c hc => exact .ofMember hkind hc h
      · exact absurd (Except.ok.inj h).symm hne
    · next hkind =>
      obtain ⟨texts, htexts, hjoin⟩ := bind_eq_ok_iff.1 h
      rw [← Except.ok.inj hjoin]
      exact .ofScope hkind (Index.mapM_eq_ok_iff.1 htexts)
    · exact absurd (Except.ok.inj h).symm hne
  · intro h
    cases h with
    | ofHead hkind hc htext => simp [Php.calleeText, hkind, callKind, hc, htext]
    | ofMember hkind hc htext => simp [Php.calleeText, hkind, Source.Parsed.childText, hc, htext]
    | ofScope hkind htexts =>
      simp only [Php.calleeText, hkind]
      exact bind_eq_ok_iff.2 ⟨_, Index.mapM_eq_ok_iff.2 htexts, rfl⟩

theorem calledText_eq_iff (hne : text ≠ "") : l.calledText s t = text ↔ CalleeText s l t text := by
  have hhead (hphp : l ≠ .php) : headText l.callKind s t = text ↔ CalleeText s l t text := by
    rw [headText_eq_iff hne]
    constructor
    · rintro ⟨hkind, c, hc, htext⟩
      exact .ofHead hkind hc htext
    · intro h
      cases h with
      | ofHead hkind hc htext => exact ⟨hkind, _, hc, htext⟩
      | ofMember => exact absurd rfl hphp
      | ofScope => exact absurd rfl hphp
  cases l with
  | php => exact (orEmpty_eq_iff hne).trans (calleeText_php_iff hne)
  | _ => exact hhead (by decide)

/-- The rule for calls is what the readers decide. -/
theorem calls_iff : l.Calls s t callee ↔ resolveCallee (l.calledText s t) = some callee := by
  constructor
  · rintro ⟨text, htext, hcallee⟩
    rwa [(calledText_eq_iff (ne_empty_of_resolveCallee hcallee)).2 htext]
  · intro h
    exact ⟨_, (calledText_eq_iff (ne_empty_of_resolveCallee h)).1 rfl, h⟩

def readCall (l : Language) (s : Site) (source : String) : Tree → Reads Emission :=
  match l with
  | .php => Php.callEdges s source
  | .python => Python.callEdges s source
  | .csharp => CSharp.callEdges s source
  | .javascript | .typescript => Script.callEmission s source
  | .go => Go.callEmission s source

def walkCalls (l : Language) (s : Site) (source : String) (body : Tree) : Reads Emission :=
  walkBody (l.readCall s source) (some body)

theorem shows_readCall (l : Language) (s : Site) (source : String) (t : Tree) :
    Ensures (l.readCall s source t) (Shows s [] (l.recordedCall? s source t).toList) := by
  cases l with
  | php => exact Php.shows_callEdges source t
  | python => exact Python.shows_callEdges source t
  | csharp => exact CSharp.shows_callEdges source t
  | javascript => exact Script.Dialect.plain.shows_callEmission source t
  | typescript => exact Script.Dialect.typed.shows_callEmission source t
  | go => exact Go.shows_callEmission source t

variable {body : Tree} {whole : String}

theorem callEdgesOf_walkCalls {em : Emission} (hwalk : l.walkCalls s source body = .ok em) :
    callEdgesOf em.edges = body.preorder.filterMap (l.recordedCall? s source) := by
  have hshows := Shows.walkBody (shows_readCall l s source) (some body) em hwalk
  rw [hshows.calls]
  simp

/-- Outside PHP a call is recorded by its callee first, whatever else is read at it. -/
theorem returns_callAt (hphp : l ≠ .php) (hread : Returns (l.readCall s source t))
    (htext : CalleeText s l t text) : Returns (callAt s source t text) := by
  cases htext with
  | ofMember => exact absurd rfl hphp
  | ofScope => exact absurd rfl hphp
  | ofHead hkind hc htext =>
    have hfirst {f : Emission → Reads Emission} (h : Returns (callAt s source t text >>= f)) :
        Returns (callAt s source t text) := by
      obtain ⟨em, hem⟩ := h
      obtain ⟨call, hcall, -⟩ := bind_eq_ok_iff.1 hem
      exact ⟨call, hcall⟩
    cases l with
    | php => exact absurd rfl hphp
    | python | csharp =>
      simp only [readCall, Python.callEdges, CSharp.callEdges, callOfKind, hkind, callKind, hc,
        htext] at hread
      exact hread
    | javascript | typescript | go =>
      simp only [readCall, Script.callEmission, Go.callEmission, RequestForm.callEmission, hkind,
        callKind, hc, htext] at hread
      exact hfirst hread

theorem returns_text_of_calls (hread : Returns (l.readCall s source t))
    (hcall : l.Calls s t callee) : Returns (s.parsed.text t) := by
  obtain ⟨text, htext, hcallee⟩ := hcall
  by_cases hphp : l = .php
  · subst hphp
    have htext := (calleeText_php_iff (ne_empty_of_resolveCallee hcallee)).2 htext
    obtain ⟨em, hem⟩ := hread
    obtain ⟨text', htext', hrest⟩ := bind_eq_ok_iff.1 hem
    rw [htext, Except.ok.injEq] at htext'
    rw [← htext', hcallee] at hrest
    obtain ⟨whole, hwhole, -⟩ := bind_eq_ok_iff.1 hrest
    exact ⟨whole, hwhole⟩
  · obtain ⟨em, hem⟩ := returns_callAt hphp hread htext
    rw [callAt, hcallee] at hem
    dsimp only at hem
    split at hem
    · next hempty => exact ⟨"", Source.Parsed.isEmpty_iff.1 hempty⟩
    · obtain ⟨whole, hwhole, -⟩ := bind_eq_ok_iff.1 hem
      exact ⟨whole, hwhole⟩

/-! ## What is recorded of a call

What a language keeps of a call is told by its callee and its text. -/

def startOrCallee (callee whole : String) : String :=
  if whole = "" then callee else Text.cut contextLength whole

/-- What a language describes a call by. All but PHP shorten a callee that stands in for the text,
too. -/
def describe (l : Language) (callee whole : String) : String :=
  match l with
  | .php => startOrCallee callee whole
  | _ => Text.cut contextLength (if whole = "" then callee else whole)

/-- An edge records the call at a tree node, which it describes by what `context` makes of the
callee and the text. -/
def Records (l : Language) (s : Site) (source : String) (context : String → String → String)
    (t : Tree) (e : Edge) :
    Prop :=
  ∃ callee whole, l.Calls s t callee ∧ s.parsed.text t = .ok whole ∧
    e = { source := source, target := Node.makeId "" callee, relation := .calls, confidence := 0.8
          context := context callee whole }

theorem keptText_eq_describe (hwhole : s.parsed.text t = .ok whole) :
    l.keptText s t callee = l.describe callee whole := by
  have hempty : s.parsed.isEmpty t ↔ whole = "" := by
    rw [Source.Parsed.isEmpty_iff, hwhole, Except.ok.injEq]
  cases l with
  | php => simp [keptText, describe, startOrCallee, hwhole]
  | _ => simp [keptText, describe, hwhole, hempty]

theorem describe_of_text (h : l = .php ∨ whole ≠ "") :
    l.describe callee whole = startOrCallee callee whole := by
  rcases h with rfl | hne
  · rfl
  · cases l <;> simp [describe, startOrCallee, hne]

theorem text_ne_empty_of_calls (hnested : body.Nested) (ht : t ∈ body.preorder)
    (hcall : l.Calls s t callee)
    (hwhole : s.parsed.text t = .ok whole) : l = .php ∨ whole ≠ "" := by
  obtain ⟨text, htext, hcallee⟩ := hcall
  cases htext with
  | ofMember => exact .inl rfl
  | ofScope => exact .inl rfl
  | @ofHead _ _ c _ hkind hc htext =>
    refine .inr fun hempty => ne_empty_of_resolveCallee hcallee ?_
    obtain ⟨hstart, hstop⟩ := hnested t ht c (List.mem_of_mem_head? hc)
    have hchild := Source.Parsed.text_child_of_empty hstart hstop (hwhole.trans (congrArg _ hempty))
    exact Except.ok.inj (htext.symm.trans hchild)

theorem returns_readCall {em : Emission} (hwalk : l.walkCalls s source body = .ok em)
    (ht : t ∈ body.preorder) : Returns (l.readCall s source t) := by
  obtain ⟨part, hpart, -⟩ := exists_infix_of_gather hwalk ht
  exact ⟨part, hpart⟩

theorem recordedCall?_isSome_iff :
    (l.recordedCall? s source t).isSome ↔ ∃ callee, l.Calls s t callee := by
  simp only [calls_iff, recordedCall?, Option.isSome_map, Option.isSome_iff_exists]

theorem records_of_recordedCall? {e : Edge} (hread : Returns (l.readCall s source t))
    (h : l.recordedCall? s source t = some e) : l.Records s source l.describe t e := by
  obtain ⟨callee, hcallee, rfl⟩ := Option.map_eq_some_iff.1 h
  obtain ⟨whole, hwhole⟩ := returns_text_of_calls hread (calls_iff.2 hcallee)
  refine ⟨callee, whole, calls_iff.2 hcallee, hwhole, ?_⟩
  rw [keptText_eq_describe hwhole, callEdge]

/-- **Calls are recorded once and in order.** A walk over a body that does not fail records one edge
for each tree node that makes a call worth recording, at whatever depth, and goes through them by
growing address. The edge leads from the routine to the callee and is described by the start of the
text of the call. A call without text is described by its callee; that an overlong one is then
shortened outside PHP shows only if a child reaches out of its parent. -/
theorem walkCalls_inOrder (l : Language) (s : Site) (source : String) (body : Tree) (em : Emission)
    (hwalk : l.walkCalls s source body = .ok em) :
    body.InOrder (fun t => ∃ callee, l.Calls s t callee) (l.Records s source l.describe)
      (callEdgesOf em.edges) ∧
    (body.Nested →
      body.InOrder (fun t => ∃ callee, l.Calls s t callee) (l.Records s source startOrCallee)
        (callEdgesOf em.edges)) := by
  have hread : body.InOrder (fun t => ∃ callee, l.Calls s t callee) (l.Records s source l.describe)
      (callEdgesOf em.edges) := by
    rw [callEdgesOf_walkCalls hwalk]
    refine Tree.inOrder_filterMap (fun t _ => recordedCall?_isSome_iff) fun t ht e he => ?_
    exact records_of_recordedCall? (returns_readCall hwalk ht) he
  refine ⟨hread, fun hnested => hread.imp fun t ht e => ?_⟩
  rintro ⟨callee, whole, hcall, hwhole, rfl⟩
  refine ⟨callee, whole, hcall, hwhole, ?_⟩
  rw [describe_of_text (text_ne_empty_of_calls hnested ht hcall hwhole)]

/-- `f(g(1), fetch('/x'))(len(y))`: a call is called, calls stand in its arguments, one of them
makes a request and one is too common to be recorded. -/
def calledCall : Tree :=
  .node "call_expression" 0 28
    [.node "call_expression" 0 20
      [.node "identifier" 0 1 [],
        .node "arguments" 1 20
          [.node "(" 1 2 [],
            .node "call_expression" 2 6 [.node "identifier" 2 3 [],
              .node "arguments" 3 6 [.node "number" 4 5 []]],
            .node "," 6 7 [],
            .node "call_expression" 8 19
              [.node "identifier" 8 13 [], .node "arguments" 13 19 [.node "string" 14 18 []]],
            .node ")" 19 20 []]],
      .node "arguments" 20 28
        [.node "call_expression" 21 27 [.node "identifier" 21 24 [], .node "arguments" 24 27 []]]]

def calledCallSite : Site :=
  ⟨"a.js", "javascript", ⟨Text.Utf8.encode "f(g(1), fetch('/x'))(len(y))", calledCall⟩⟩

theorem walkCalls_inOrder_calledCall :
    ∃ em, javascript.walkCalls calledCallSite "id" calledCall = .ok em ∧ calledCall.Nested ∧
    calledCall.InOrder (fun t => ∃ callee, javascript.Calls calledCallSite t callee)
      (javascript.Records calledCallSite "id" startOrCallee) (callEdgesOf em.edges) ∧
    (callEdgesOf em.edges).map (·.context) =
      ["f(g(1), fetch('/x'))(len(y))", "f(g(1), fetch('/x'))", "g(1)", "fetch('/x')"] := by
  obtain ⟨em, hem⟩ := exists_eq_ok
    (show (javascript.walkCalls calledCallSite "id" calledCall).toOption.isSome =
      true by decide +kernel)
  have hnested : calledCall.Nested := by decide +kernel
  refine ⟨em, hem, hnested, (walkCalls_inOrder javascript calledCallSite "id" calledCall em hem).2
    hnested, ?_⟩
  rw [callEdgesOf_walkCalls hem]
  decide +kernel

end CodeAtlas.Language
