import CodeAtlas.Proofs.BareNames
import CodeAtlas.Proofs.CallSites
import CodeAtlas.Proofs.CallerCounts
import CodeAtlas.Proofs.Cutting
import CodeAtlas.Report.Explain
import CodeAtlas.View.Links

/-!
# The callee that is read back

A call is recorded with its text, and four readers find the callee in the text again: the count of
callers, the walk through callees, the report on one symbol and the links of the view. They look for
the last word before an opening parenthesis, so a call among the arguments hides the outer one. A
text without such a word is cut, and the view cuts it at other characters than the others do.
-/

namespace CodeAtlas

open List
open Extract (Emission Routine Site contextLength orEmpty)
open Source (Tree Parsed)
open Text (cut isBlank lower lowerChars trimList)
open Hotspot (callersOf)
open Report (calleesOf directCallees)
open View (idsNamed isCalleeCut linkedName resolveLinks)

/-! ## Readers of calls

Each reader looks at all edges. What it makes of one more says what it takes that edge for. -/

/-- Every reader takes a recorded call for a call of `name`, wherever the call stands among the
edges. -/
structure ReadAs (e : Edge) (name : String) : Prop where
  /-- Its source is a caller of the name, and of no other. -/
  counted : ∀ before after other source, source ∈ callersOf (before ++ e :: after) (lower other) ↔
    source ∈ callersOf before (lower other) ∨
      lower other = lower name ∧ source = e.source ∨
      source ∈ callersOf after (lower other)
  /-- It leads to the first node of the name that was not reached. -/
  reached : ∀ nodes before after ids seen, calleesOf nodes (before ++ e :: after) ids seen =
    calleesOf nodes before ids seen ++
      (if ids.contains e.source then
        (((nodesNamed nodes name).find? fun n => !seen.contains n.id).map (·, e.context)).toList
        else []) ++
      calleesOf nodes after ids seen
  /-- It leads to the first symbol of the name. -/
  explained : ∀ nodes before after n, directCallees nodes (before ++ e :: after) n =
    directCallees nodes before n ++
      (if e.source = n.id then (nodesNamed (symbolsOf nodes) name).head?.toList else []) ++
      directCallees nodes after n
  /-- It is linked to all other symbols whose bare name is the name, if there are any. -/
  linked : ∀ nodes before after, resolveLinks nodes (before ++ e :: after) =
    resolveLinks nodes before ++
      (match (idsNamed (symbolsOf nodes) (lower name)).filter (· != e.source) with
        | [] => [e]
        | targets => targets.map fun t => { e with target := t }) ++
      resolveLinks nodes after

theorem nodesNamed_congr {nodes : List Node} {name other : String} (h : lower name = lower other) :
    nodesNamed nodes name = nodesNamed nodes other := by
  rw [nodesNamed, nodesNamed, h]

section Readers

variable {e : Edge} {name : String} (hname : lower (calleeName e.context) = lower name)

include hname

theorem callsName_iff (hne : name ≠ "") (other : String) :
    CallsName e other ↔ lower other = lower name := by
  rw [CallsName, hname]
  refine ⟨fun h => h.1.symm, fun h => ⟨h.symm, ?_⟩⟩
  rintro rfl
  exact hne (lower_eq_empty_iff.1 h.symm)

theorem mem_callersOf_cons (he : e.relation = .calls) (hne : name ≠ "") (before after : List Edge)
    (other source : String) : source ∈ callersOf (before ++ e :: after) (lower other) ↔
      source ∈ callersOf before (lower other) ∨
        lower other = lower name ∧ source = e.source ∨
        source ∈ callersOf after (lower other) := by
  have hedges :
      callEdgesOf (before ++ e :: after) = callEdgesOf before ++ e :: callEdgesOf after := by
    simp [callEdgesOf, he]
  rw [mem_callersOf_iff, mem_callersOf_iff, mem_callersOf_iff, hedges,
    ← callsName_iff hname hne other]
  simp only [mem_append, mem_cons, or_and_right, exists_or, exists_eq_left]
  rw [@eq_comm _ e.source]

theorem calleesOf_cons (hne : name ≠ "") (nodes : List Node) (before after : List Edge)
    (ids seen : List String) :
    calleesOf nodes (before ++ e :: after) ids seen =
      calleesOf nodes before ids seen ++
        (if ids.contains e.source then
          (((nodesNamed nodes name).find? fun n => !seen.contains n.id).map (·, e.context)).toList
          else []) ++
        calleesOf nodes after ids seen := by
  have hfull : (calleeName e.context).isEmpty = false := by
    rw [String.isEmpty_eq_false_iff]
    intro hempty
    rw [hempty] at hname
    exact hne (lower_eq_empty_iff.1 (hname.symm.trans (lower_eq_empty_iff.2 rfl)))
  have hone : calleesOf nodes [e] ids seen = if ids.contains e.source then
      (((nodesNamed nodes name).find? fun n => !seen.contains n.id).map (·, e.context)).toList
        else [] := by
    rw [calleesOf, filterMap_cons, filterMap_nil]
    dsimp only
    rw [hfull, nodesNamed_congr hname]
    by_cases hsource : ids.contains e.source
    · rw [hsource]
      cases (nodesNamed nodes name).find? fun n => !seen.contains n.id <;> rfl
    · rw [if_neg hsource, if_neg (by simpa using hsource)]
  rw [← hone, ← singleton_append, ← append_assoc, calleesOf, filterMap_append,
    filterMap_append]
  rfl

theorem directCallees_cons (nodes : List Node) (before after : List Edge) (n : Node) :
    directCallees nodes (before ++ e :: after) n =
      directCallees nodes before n ++
        (if e.source = n.id then (nodesNamed (symbolsOf nodes) name).head?.toList else []) ++
        directCallees nodes after n := by
  have hone : directCallees nodes [e] n =
      if e.source = n.id then (nodesNamed (symbolsOf nodes) name).head?.toList else [] := by
    rw [← nodesNamed_congr hname, directCallees]
    by_cases hsource : e.source = n.id
    · rw [if_pos hsource, filter_cons_of_pos (by simpa using hsource)]
      cases hfirst : (nodesNamed (symbolsOf nodes) (calleeName e.context)).head? <;> simp [hfirst]
    · rw [if_neg hsource, filter_cons_of_neg (by simpa using hsource)]
      rfl
  rw [← hone, ← singleton_append, ← append_assoc, directCallees, filter_append,
    filter_append, filterMap_append, filterMap_append]
  rfl

end Readers

theorem resolveLinks_cons {e : Edge} {name : String} (he : e.relation = .calls)
    (hname : linkedName e.context = lower name) (nodes : List Node) (before after : List Edge) :
    resolveLinks nodes (before ++ e :: after) =
      resolveLinks nodes before ++
        (match (idsNamed (symbolsOf nodes) (lower name)).filter (· != e.source) with
          | [] => [e]
          | targets => targets.map fun t => { e with target := t }) ++
        resolveLinks nodes after := by
  rw [resolveLinks, flatMap_append, flatMap_cons, ← append_assoc, View.linksOf, he, hname]
  rfl

theorem ReadAs.lower_calleeName {e : Edge} {name : String} (h : ReadAs e name) :
    lower (calleeName e.context) = lower name := by
  -- alone among the edges, the call makes its source a caller of the name
  have hsource := (h.counted [] [] name e.source).2 (.inr (.inl ⟨rfl, rfl⟩))
  obtain ⟨e', he', hcalls, -⟩ := mem_callersOf_iff.1 hsource
  rw [mem_singleton.1 (mem_of_mem_filter he')] at hcalls
  exact hcalls.1

/-- A call is read as a call of the last called word of its text, case ignored. -/
theorem readAs_iff {e : Edge} {word : List Char} {name : String} (he : e.relation = .calls)
    (hword : lastCalled? e.context.toList = some word) :
    ReadAs e name ↔ lower name = lower (String.ofList word) := by
  have hcallee : calleeName e.context = String.ofList word := by
    simp [calleeName, calleeBy, hword]
  have hlinked : linkedName e.context = lower (String.ofList word) := by
    simp [linkedName, calleeBy, hword]
  have hne : String.ofList word ≠ "" := by
    obtain ⟨pre, post, -, hisolated⟩ := isolated_lastCalled hword
    simpa using hisolated.ne_nil
  constructor
  · intro h
    rw [← hcallee]
    exact h.lower_calleeName.symm
  · intro hname
    have hlow : lower (calleeName e.context) = lower name := by rw [hcallee, hname]
    have hname_ne : name ≠ "" := by
      rintro rfl
      exact hne (lower_eq_empty_iff.1 (hname.symm.trans (lower_eq_empty_iff.2 rfl)))
    exact ⟨mem_callersOf_cons hlow he hname_ne, calleesOf_cons hlow hname_ne,
      directCallees_cons hlow, resolveLinks_cons he (hlinked.trans hname.symm)⟩

/-! ## Calls with arguments

The last called word may be one among the arguments. -/

/-- The text of a call: its callee, blanks, and a parenthesis with the arguments and whatever else
comes behind it. -/
structure Applied (text callee : String) (before blanks args : List Char) : Prop where
  spelled : text.toList = before ++ (callee.toList ++ (blanks ++ '(' :: args))
  edge_before : before.getLast?.any Text.isWord = false
  blank : ∀ c ∈ blanks, isBlank c = true

/-- The last called word of a call is one among the arguments, or else the name of the callee. -/
theorem Applied.lastCalled?_toList {text callee name : String} {before blanks args : List Char}
    (h : Applied text callee before blanks args) (hends : EndsIn callee name) :
    lastCalled? text.toList = some ((lastCalled? args).getD name.toList) := by
  obtain ⟨pre, htext, hpre, -⟩ := hends.exists_before h.spelled h.edge_before
  rw [htext]
  exact lastCalled?_call hpre hends.toList_ne_nil hends.letters h.blank args

theorem cut_eq_self {n : Nat} {text : String} (h : text.length ≤ n) : cut n text = text := by
  rw [cut, take_of_length_le (by rwa [String.length_toList]), String.ofList_toList]

/-- **Which callee is read back.** Take a call in a file of any language whose text is kept as a
whole and whose callee ends in a name. Its edge is read as a call of the last called word among the
arguments, if there is one. So it is read as a call of the name exactly if that word is the name,
case ignored, or there is none. -/
theorem readAs_extracted (l : Language) (file : String) (parsed : Parsed) (em : Emission)
    (hem : extractSymbols l.name file parsed = .ok em) (r : Routine) (t : Tree)
    (callee name : String)
    (hcall : l.CallIn ⟨file, l.name, parsed⟩ r t callee) (hends : EndsIn callee name)
    (before blanks args : List Char)
    (happlied : Applied (orEmpty (parsed.text t)) callee before blanks args)
    (hlen : (orEmpty (parsed.text t)).length ≤ contextLength) :
    ∃ e ∈ callEdgesOf em.edges, e.source = r.id ∧ e.context = orEmpty (parsed.text t) ∧
      ReadAs e (String.ofList ((lastCalled? args).getD name.toList)) ∧
      (ReadAs e name ↔
        ∀ inner, lastCalled? args = some inner → lower (String.ofList inner) = lower name) := by
  have htext : orEmpty (parsed.text t) ≠ "" := hends.text_ne_empty happlied.spelled
  have hmem := (Language.mem_callEdges_iff hem).2 ⟨r, t, callee, hcall, rfl⟩
  have hcontext : (l.edgeOf ⟨file, l.name, parsed⟩ r t callee).context = orEmpty (parsed.text t) :=
    (Language.keptText_of_text callee htext).trans (cut_eq_self hlen)
  have hsource : (l.edgeOf ⟨file, l.name, parsed⟩ r t callee).source = r.id := rfl
  have hrelation : (l.edgeOf ⟨file, l.name, parsed⟩ r t callee).relation = .calls := rfl
  generalize l.edgeOf ⟨file, l.name, parsed⟩ r t callee = e at hmem hcontext hsource hrelation
  have hlast : lastCalled? e.context.toList = some ((lastCalled? args).getD name.toList) := by
    rw [hcontext]
    exact happlied.lastCalled?_toList hends
  refine ⟨e, hmem, hsource, hcontext, (readAs_iff hrelation hlast).2 rfl, ?_⟩
  rw [readAs_iff hrelation hlast]
  cases lastCalled? args with
  | none => simp
  | some inner =>
    constructor
    · rintro hname _ ⟨⟩
      exact hname.symm
    · intro hname
      exact (hname inner rfl).symm

def plainCall : Tree :=
  .node "call" 11 15 [.node "identifier" 11 12 []]

def nestedCall : Tree :=
  .node "call" 18 25 [.node "identifier" 18 19 [],
    .node "argument_list" 19 25 [.node "call" 20 24 [.node "identifier" 20 21 []]]]

def bothCalls : Tree :=
  .node "block" 11 25 [plainCall, nestedCall]

def nestedFile : Parsed where
  bytes := Text.Utf8.encode "def f():\n  g(1)\n  g(h(1))"
  root := .node "module" 0 25 [.node "function_definition" 0 25 [.node "identifier" 4 5 [],
    bothCalls]]

theorem callIn_nestedFile :
    ∃ r, Language.python.CallIn ⟨"a.py", Language.python.name, nestedFile⟩ r plainCall "g" ∧
    Language.python.CallIn ⟨"a.py", Language.python.name, nestedFile⟩ r nestedCall "g" := by
  have hname :
      orEmpty (nestedFile.childText (.node "function_definition" 0 25 [.node "identifier" 4 5 [],
        bothCalls])
        "identifier") ≠ "" := by
    decide +kernel
  have hroutine : ∃ r, Language.python.routines ⟨"a.py", Language.python.name, nestedFile⟩ = [r] ∧
      r.bodies = [bothCalls] :=
    ⟨_, (append_nil _).trans (if_neg (by simpa using hname)), rfl⟩
  obtain ⟨r, hroutines, hbodies⟩ := hroutine
  have hr : r ∈ Language.python.routines ⟨"a.py", Language.python.name, nestedFile⟩ := by
    simp [hroutines]
  have hbody : bothCalls ∈ r.bodies := by simp [hbodies]
  refine ⟨r, ⟨hr, ⟨bothCalls, hbody, ?_⟩, by decide +kernel⟩,
    ⟨hr, ⟨bothCalls, hbody, ?_⟩, by decide +kernel⟩⟩
  · simp [bothCalls, plainCall, Tree.preorder, Tree.preorderAll]
  · simp [bothCalls, plainCall, nestedCall, Tree.preorder, Tree.preorderAll]

theorem readAs_extracted_nestedFile :
    ∃ em, extractSymbols Language.python.name "a.py" nestedFile = .ok em ∧
      (∃ e ∈ callEdgesOf em.edges, e.context = "g(1)" ∧ ReadAs e "g") ∧
      (∃ e ∈ callEdgesOf em.edges, e.context = "g(h(1))" ∧ ReadAs e "h" ∧ ¬ ReadAs e "g") := by
  obtain ⟨em, hem⟩ := Extract.exists_eq_ok
    (show (extractSymbols Language.python.name "a.py" nestedFile).toOption.isSome =
      true by decide +kernel)
  have hg : EndsIn "g" "g" := .self (by decide) (by decide)
  have hplain : orEmpty (nestedFile.text plainCall) = "g(1)" := by decide +kernel
  have hnested : orEmpty (nestedFile.text nestedCall) = "g(h(1))" := by decide +kernel
  have hinner : lastCalled? "h(1))".toList = some "h".toList := by decide +kernel
  obtain ⟨r, hcall, hcall'⟩ := callIn_nestedFile
  refine ⟨em, hem, ?_, ?_⟩
  · obtain ⟨e, he, -, hcontext, hread, -⟩ :=
      readAs_extracted .python "a.py" nestedFile em hem r plainCall "g" "g"
      hcall hg [] [] "1)".toList ⟨by rw [hplain]; decide, rfl, by simp⟩ (by rw [hplain]; decide)
    exact ⟨e, he, hcontext.trans hplain, hread⟩
  · obtain ⟨e, he, -, hcontext, hread, hiff⟩ :=
      readAs_extracted .python "a.py" nestedFile em hem r nestedCall "g" "g"
      hcall' hg [] [] "h(1))".toList ⟨by rw [hnested]; decide, rfl, by simp⟩
        (by rw [hnested]; decide)
    rw [hinner] at hread
    refine ⟨e, he, hcontext.trans hnested, hread, fun hwrong => ?_⟩
    have hsame := hiff.1 hwrong "h".toList hinner
    revert hsame
    decide +kernel

/-! ## Calls without a parenthesis

Readers cut such a text at different characters, so they may find different callees. -/

theorem isCalleeCut_of_isBlank {c : Char} (h : isBlank c) : isCalleeCut c = false := by
  by_contra hcut
  simp only [isCalleeCut, Bool.not_eq_false, Bool.or_eq_true, beq_iff_eq] at hcut
  rcases hcut with ((rfl | rfl) | rfl) | rfl <;> exact absurd h (by decide)

theorem exists_trimList_append (front : List Char) {name : List Char}
    (hname : ∀ c ∈ name, isBlank c = false) :
    ∃ kept, trimList isBlank (front ++ name) = kept ++ name ∧
      (kept = [] → ∀ c ∈ front, isBlank c) := by
  by_cases hnil : name = []
  · subst hnil
    refine ⟨trimList isBlank front, by simp, fun hkept c hc => ?_⟩
    by_contra hfull
    exact Text.trimList_ne_nil hc (by simpa using hfull) hkept
  · refine ⟨front.dropWhile isBlank, ?_, fun hkept => dropWhile_eq_nil_iff.1 hkept⟩
    have hhead : ∀ c ∈ (front.dropWhile isBlank ++ name).head?, isBlank c = false := by
      intro c hc
      have hstop := head?_dropWhile_not isBlank front
      cases hdrop : front.dropWhile isBlank with
      | nil =>
        rw [hdrop, nil_append] at hc
        exact hname c (mem_of_mem_head? hc)
      | cons d rest =>
        rw [hdrop] at hc hstop
        obtain rfl := Option.some.inj hc
        simpa using hstop
    have hlast : ∀ c ∈ (front.dropWhile isBlank ++ name).getLast?, isBlank c = false := by
      intro c hc
      rw [getLast?_append_of_ne_nil _ hnil] at hc
      exact hname c (mem_of_mem_getLast? hc)
    have hends := Text.trimList_of_ends (by simp [hnil]) hhead hlast (forall_mem_nil _)
    rw [append_nil] at hends
    calc trimList isBlank (front ++ name)
        = trimList isBlank (front.takeWhile isBlank ++ (front.dropWhile isBlank ++ name)) := by
          rw [← append_assoc, takeWhile_append_dropWhile]
      _ = trimList isBlank (front.dropWhile isBlank ++ name) :=
          Text.trimList_append_left fun c hc => mem_takeWhile_imp hc
      _ = front.dropWhile isBlank ++ name := hends

/-- Trimming a piece gives a name, case ignored, exactly if the piece is blanks and the name. -/
theorem lowerChars_trimList_eq_iff {piece name : List Char} (hname : ∀ c ∈ name, isBlank c = false)
    (hends : piece <:+ name ∨ name <:+ piece) :
    lowerChars (trimList isBlank piece) = lowerChars name ↔
      ∃ gap, (∀ c ∈ gap, isBlank c) ∧ piece = gap ++ name := by
  constructor
  · intro h
    rcases hends with ⟨front, rfl⟩ | ⟨front, rfl⟩
    · rw [trimList_eq_self fun c hc => hname c (mem_append_right _ hc)] at h
      have hnil := Text.eq_nil_of_lowerChars_append h.symm
      exact ⟨[], by simp, by rw [hnil]; rfl⟩
    · obtain ⟨kept, htrim, hkept⟩ := exists_trimList_append front hname
      rw [htrim] at h
      exact ⟨front, hkept (Text.eq_nil_of_lowerChars_append h), rfl⟩
  · rintro ⟨gap, hgap, rfl⟩
    rw [Text.trimList_append_left hgap, trimList_eq_self hname]

/-- The texts in which all readers find the same callee: a word before a parenthesis or, where there
is none, a name that no reader cuts. Blanks may come before the name. What comes before it is a
character at which every reader cuts, or one at which the view does, if there are blanks between. -/
inductive ReadAlike : List Char → Prop where
  | called {cs word : List Char} (hword : lastCalled? cs = some word) : ReadAlike cs
  | named {front gap name : List Char} (hgap : ∀ c ∈ gap, isBlank c = true)
      (hname : ∀ c ∈ name, isCalleeEnd c = false ∧ isCalleeCut c = false)
      (hfront : ∀ c, front.getLast? = some c → isCalleeCut c = true ∧
        (gap = [] → isCalleeEnd c = true)) :
      ReadAlike (front ++ (gap ++ name))

theorem isBlank_of_isCalleeEnd {c : Char} (h : isCalleeEnd c = false) : isBlank c = false := by
  simp only [isCalleeEnd, Bool.or_eq_false_iff] at h
  exact h.2

/-- Blanks are all that may stand between the two cuts. -/
theorem readAlike_iff {cs : List Char} (hnone : lastCalled? cs = none) : ReadAlike cs ↔
    ∃ gap, (∀ c ∈ gap, isBlank c) ∧
      lastPiece isCalleeCut cs = gap ++ lastPiece isCalleeEnd cs := by
  constructor
  · intro h
    cases h with
    | called hword => rw [hnone] at hword; cases hword
    | @named front gap name hgap hname hfront =>
      refine ⟨gap, hgap, ?_⟩
      have hview : lastPiece isCalleeCut (front ++ (gap ++ name)) = gap ++ name := by
        refine lastPiece_append (fun c hc => (hfront c hc).1) fun c hc => ?_
        rcases mem_append.1 hc with hc | hc
        · exact isCalleeCut_of_isBlank (hgap c hc)
        · exact (hname c hc).2
      have hothers : lastPiece isCalleeEnd (front ++ (gap ++ name)) = name := by
        rw [← append_assoc]
        refine lastPiece_append (fun c hc => ?_) fun c hc => (hname c hc).1
        by_cases hnil : gap = []
        · rw [hnil, append_nil] at hc
          exact (hfront c hc).2 hnil
        · rw [getLast?_append_of_ne_nil _ hnil] at hc
          simp [isCalleeEnd, hgap c (mem_of_mem_getLast? hc)]
      rw [hview, hothers]
  · rintro ⟨gap, hgap, hpiece⟩
    obtain ⟨front, hcs, hfront⟩ := exists_lastPiece isCalleeCut cs
    obtain ⟨front', hcs', hfront'⟩ := exists_lastPiece isCalleeEnd cs
    have hspelled : cs = front ++ (gap ++ lastPiece isCalleeEnd cs) := by rw [← hpiece]; exact hcs
    rw [hspelled]
    refine .named hgap (fun c hc => ⟨not_isCut_of_mem_lastPiece hc, ?_⟩) fun c hc =>
      ⟨hfront c hc, fun hnil => ?_⟩
    · have hmem : c ∈ lastPiece isCalleeCut cs := hpiece ▸ mem_append_right _ hc
      exact not_isCut_of_mem_lastPiece hmem
    · -- without blanks both cuts are in one place
      rw [hnil, nil_append] at hspelled
      exact hfront' c (append_cancel_right (hcs'.symm.trans hspelled) ▸ hc)

theorem linkedName_eq_iff (context : String) :
    linkedName context = lower (calleeName context) ↔ ReadAlike context.toList := by
  cases hcalled : lastCalled? context.toList with
  | some word =>
    simp only [linkedName, calleeName, calleeBy, hcalled, Option.getD_some, true_iff]
    exact .called hcalled
  | none =>
    have hlinked : linkedName context = String.ofList
        (lowerChars (trimList isBlank (lastPiece isCalleeCut context.toList))) := by
      rw [linkedName, lower, calleeBy, hcalled, Option.getD_none, String.toList_ofList]
    have hends : lastPiece isCalleeCut context.toList <:+ lastPiece isCalleeEnd context.toList ∨
        lastPiece isCalleeEnd context.toList <:+ lastPiece isCalleeCut context.toList := by
      obtain ⟨front, hfront, -⟩ := exists_lastPiece isCalleeCut context.toList
      obtain ⟨front', hfront', -⟩ := exists_lastPiece isCalleeEnd context.toList
      exact suffix_or_suffix_of_suffix ⟨front, hfront.symm⟩ ⟨front', hfront'.symm⟩
    rw [readAlike_iff hcalled, hlinked, lower, toList_calleeName, hcalled, Option.getD_none,
      String.ofList_inj]
    exact lowerChars_trimList_eq_iff (fun c hc => isBlank_of_isCalleeEnd
      (not_isCut_of_mem_lastPiece hc)) hends

theorem bareName_calleeBy {context : String} (hnone : lastCalled? context.toList = none) :
    bareName (calleeBy isCalleeCut context) = calleeBy isCalleeCut context := by
  refine bareName_eq_self_iff.2 (unseparated_of_forall fun c hc => ?_)
  rw [calleeBy, hnone, Option.getD_none, String.toList_ofList] at hc
  have hcut := not_isCut_of_mem_lastPiece (Text.mem_of_mem_trimList hc)
  simp only [isCalleeCut, Bool.or_eq_false_iff, beq_eq_false_iff_ne] at hcut
  exact ⟨hcut.1.1.2, hcut.1.2, hcut.1.1.1⟩

theorem exists_fresh_id (a b : String) : ∃ id : String, id ≠ a ∧ id ≠ b := by
  have hx : "x".length = 1 := rfl
  have hlength : (a ++ b ++ "x").length = a.length + b.length + 1 := by
    rw [String.length_append, String.length_append, hx]
  refine ⟨a ++ b ++ "x", ?_, ?_⟩
  · intro h
    rw [h] at hlength
    omega
  · intro h
    rw [h] at hlength
    omega

section OneCall

variable {e : Edge} (he : e.relation = .calls)

include he

theorem mem_callersOf_iff_calleesOf (n : Node) : e.source ∈ callersOf [e] (lower n.name) ↔
    calleesOf [n] [e] [e.source] [] = [(n, e.context)] := by
  have hcounted : e.source ∈ callersOf [e] (lower n.name) ↔ CallsName e n.name := by
    have hedges : callEdgesOf [e] = [e] := by simp [callEdgesOf, he]
    rw [mem_callersOf_iff, hedges]
    simp
  rw [hcounted, CallsName]
  by_cases hempty : calleeName e.context = ""
  · have hskipped : calleesOf [n] [e] [e.source] [] = [] := by simp [calleesOf, hempty]
    rw [hskipped, hempty]
    refine iff_of_false (fun h => h.2 ?_) (by simp)
    exact lower_eq_empty_iff.1 (h.1.symm.trans (lower_eq_empty_iff.2 rfl))
  · have hwalk : calleesOf [n] [e] [e.source] [] =
        (((nodesNamed [n] (calleeName e.context)).find? fun m => !([] : List String).contains
          m.id).map (·, e.context)).toList := by
      simpa [calleesOf] using calleesOf_cons rfl hempty [n] [] [] [e.source] []
    rw [hwalk, nodesNamed]
    by_cases hlow : lower n.name = lower (calleeName e.context)
    · have hne : n.name ≠ "" := by
        intro hnil
        rw [hnil, lower_eq_empty_iff.2 rfl] at hlow
        exact hempty (lower_eq_empty_iff.1 hlow.symm)
      simp [hlow, hne]
    · simp [hlow, Ne.symm hlow]

theorem ReadAs.linkedName_eq {name : String} (h : ReadAs e name)
    (hnone : lastCalled? e.context.toList = none) : linkedName e.context = lower name := by
  by_contra hne
  obtain ⟨id, hsource, htarget⟩ := exists_fresh_id e.source e.target
  -- a symbol with the name that the view finds, to which the call does not lead yet
  let n : Node :=
    { id := id, kind := .function, name := calleeBy isCalleeCut e.context
      loc := { file := "", first := 1, last := 1 }, language := "" }
  have hbare : bareName n.name = n.name := bareName_calleeBy hnone
  have hfound : (idsNamed (symbolsOf [n]) (lower n.name)).filter (· != e.source) = [id] := by
    show (idsNamed [n] (lower n.name)).filter (· != e.source) = [n.id]
    simp [idsNamed, hbare, n, hsource]
  have hmissed : (idsNamed (symbolsOf [n]) (lower name)).filter (· != e.source) = [] := by
    have hlow : lower n.name ≠ lower name := hne
    show (idsNamed [n] (lower name)).filter (· != e.source) = []
    simp [idsNamed, hbare, hlow]
  have hlinks := resolveLinks_cons he (show linkedName e.context = lower n.name from rfl) [n] [] []
  rw [h.linked, hfound, hmissed] at hlinks
  have hsame : [e] = [{ e with target := id }] := hlinks
  exact htarget (congrArg Edge.target (singleton_inj.1 hsame)).symm

end OneCall

/-- **Where the readers agree.** The view finds the callee that the others find, case ignored,
exactly in the texts of `ReadAlike`. The count of callers and the walk through callees read every
call alike, and a call with a callee is read alike by all readers exactly if its text is such a one.
-/
theorem readers_agree_iff (context : String) :
    (linkedName context = lower (calleeName context) ↔ ReadAlike context.toList) ∧
    ∀ e : Edge, e.relation = .calls → e.context = context →
      (∀ n : Node, e.source ∈ callersOf [e] (lower n.name) ↔
        calleesOf [n] [e] [e.source] [] = [(n, context)]) ∧
      (calleeName context ≠ "" → ((∃ name, ReadAs e name) ↔ ReadAlike context.toList)) := by
  refine ⟨linkedName_eq_iff context, ?_⟩
  rintro e he rfl
  refine ⟨mem_callersOf_iff_calleesOf he, fun hcallee => ⟨?_, fun halike => ?_⟩⟩
  · rintro ⟨name, hread⟩
    cases hcalled : lastCalled? e.context.toList with
    | some word => exact .called hcalled
    | none =>
      rw [← linkedName_eq_iff, hread.linkedName_eq he hcalled]
      exact (hread.lower_calleeName).symm
  · have hlinked := (linkedName_eq_iff e.context).2 halike
    exact ⟨calleeName e.context, mem_callersOf_cons rfl he hcallee, calleesOf_cons rfl hcallee,
      directCallees_cons rfl, resolveLinks_cons he hlinked⟩

def bareCall (name : String) : Edge :=
  { source := "f", target := "", relation := .calls, context := name }

theorem readers_agree_iff_users :
    linkedName "users" = "" ∧ lower (calleeName "users") = "users" ∧
      (¬ ∃ name, ReadAs (bareCall "users") name) ∧
    ∃ name, ReadAs (bareCall "total") name := by
  have hview : linkedName "users" = "" := by decide +kernel
  have hothers : lower (calleeName "users") = "users" := by decide +kernel
  have hsame : linkedName "total" = lower (calleeName "total") := by decide +kernel
  refine ⟨hview, hothers, fun hread => ?_, ?_⟩
  · obtain ⟨hname, hcalls⟩ := readers_agree_iff "users"
    have halike := ((hcalls (bareCall "users") rfl rfl).2 (by decide +kernel)).1 hread
    have heq := hname.2 halike
    rw [hview, hothers] at heq
    exact absurd heq (by decide)
  · obtain ⟨hname, hcalls⟩ := readers_agree_iff "total"
    exact ((hcalls (bareCall "total") rfl rfl).2 (by decide +kernel)).2 (hname.1 hsame)

end CodeAtlas
