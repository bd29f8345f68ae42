import CodeAtlas.Proofs.RecordedCalls
import CodeAtlas.Proofs.Words
import CodeAtlas.Report.Calls

/-!
# The calls that a report on usages finds

A report on the usages of a name looks for the name in what is kept of the text of each call. That
is the start of the text only, so a call is found if its callee ends early enough.
-/

namespace CodeAtlas

open List
open Extract (Emission Routine Site contextLength isRoutine orEmpty)
open Source (Tree Parsed)
open Text (containsWord cut isWord)

/-! ## How a call is written

A name is found in what is kept of a call if the callee is not cut off. -/

/-- A callee ends in a name, which is a whole word there. -/
structure EndsIn (callee name : String) : Prop where
  ne_empty : name ≠ ""
  letters : ∀ c ∈ name.toList, isWord c = true
  spelled : ∃ path : List Char, callee.toList = path ++ name.toList ∧
    path.getLast?.any isWord = false

/-- A callee stands in the text of its call between `before` and `after`, and no word goes on at its
ends. -/
structure SetOff (text callee : String) (before after : List Char) : Prop where
  spelled : text.toList = before ++ (callee.toList ++ after)
  edge_before : before.getLast?.any isWord = false
  edge_after : after.head?.any isWord = false

variable {name callee text : String} {before after : List Char} {nodes : List Node}

theorem EndsIn.self (hne : name ≠ "") (hword : name.toList.all isWord) : EndsIn name name :=
  ⟨hne, all_eq_true.1 hword, [], rfl, rfl⟩

theorem EndsIn.toList_ne_nil (h : EndsIn callee name) : name.toList ≠ [] := by
  simpa using h.ne_empty

theorem EndsIn.text_ne_empty (hends : EndsIn callee name)
    (hspelled : text.toList = before ++ (callee.toList ++ after)) : text ≠ "" := by
  rintro rfl
  obtain ⟨path, hpath, -⟩ := hends.spelled
  have hnil : before ++ (path ++ name.toList ++ after) = [] := by
    rw [← hpath, ← hspelled, String.toList_empty]
  simp only [append_eq_nil_iff] at hnil
  exact hends.toList_ne_nil hnil.2.1.2

theorem EndsIn.exists_before (hends : EndsIn callee name)
    (hspelled : text.toList = before ++ (callee.toList ++ after))
    (hbefore : before.getLast?.any isWord = false) :
    ∃ pre, text.toList = pre ++ (name.toList ++ after) ∧ pre.getLast?.any isWord = false ∧
      pre.length + name.length = before.length + callee.length := by
  obtain ⟨path, hpath, hedge⟩ := hends.spelled
  refine ⟨before ++ path, ?_, ?_, ?_⟩
  · rw [hspelled, hpath, append_assoc, append_assoc]
  · cases hlast : path.getLast? with
    | none =>
      -- the callee is the bare name, so what counts is the text before the callee
      rw [getLast?_eq_none_iff.1 hlast, append_nil]
      exact hbefore
    | some c =>
      rw [getLast?_append, hlast]
      rw [hlast] at hedge
      exact hedge
  · have hlength := congrArg List.length hpath
    rw [length_append, String.length_toList, String.length_toList] at hlength
    rw [length_append]
    omega

/-- What is kept of a text holds the name if it holds the whole callee. -/
theorem SetOff.containsWord_cut {n : Nat} (hoff : SetOff text callee before after)
    (hends : EndsIn callee name)
    (hn : before.length + callee.length ≤ n) : containsWord name (cut n text) := by
  obtain ⟨pre, htext, hpre, hlength⟩ := hends.exists_before hoff.spelled hoff.edge_before
  have hlen : (pre ++ name.toList).length ≤ n := by
    rw [length_append, String.length_toList]
    omega
  have hcut : (cut n text).toList = pre ++ (name.toList ++
      after.take (n - (pre ++ name.toList).length)) := by
    rw [cut, String.toList_ofList, htext, ← append_assoc, take_append, take_of_length_le hlen,
      append_assoc]
  have hafter : (after.take (n - (pre ++ name.toList).length)).head?.any isWord = false := by
    rw [head?_take]
    split
    · rfl
    · exact hoff.edge_after
  exact Text.Isolated.containsWord ⟨hends.toList_ne_nil, hends.letters, hpre, hafter⟩ hcut (.refl _)

theorem Language.keptText_of_text {l : Language} {s : Site} {t : Tree} (callee : String)
    (htext : orEmpty (s.parsed.text t) ≠ "") :
    l.keptText s t callee = cut contextLength (orEmpty (s.parsed.text t)) := by
  have hfull : s.parsed.isEmpty t = false := by
    by_contra hempty
    -- an empty span has the empty text
    have hslice : s.parsed.slice t = [] := by simpa [Parsed.isEmpty] using hempty
    refine htext ?_
    rw [Parsed.text, hslice]
    rfl
  cases l with
  | php => exact if_neg (by simpa using htext)
  | _ => simp [Language.keptText, hfull]

theorem SetOff.containsWord_keptText {s : Site} {t : Tree}
    (hoff : SetOff (orEmpty (s.parsed.text t)) callee before after) (hends : EndsIn callee name)
    (hlen : before.length + callee.length ≤ contextLength) (l : Language) :
    containsWord name (l.keptText s t callee) := by
  rw [Language.keptText_of_text callee (hends.text_ne_empty hoff.spelled)]
  exact hoff.containsWord_cut hends hlen

theorem id_of_nodeWithId? {id : String} {n : Node} (h : nodeWithId? nodes id = some n) :
    n.id = id := by
  have hfound := find?_some h
  simpa using hfound

theorem exists_nodeWithId? {n : Node} (hn : n ∈ nodes) : ∃ m, nodeWithId? nodes n.id = some m := by
  rw [← Option.isSome_iff_exists, nodeWithId?, find?_isSome]
  exact ⟨n, mem_reverse.2 hn, by simp⟩

theorem mem_callSites_iff {edges : List Edge} {site : Node × String} :
    site ∈ Report.callSites nodes edges name "" "" ↔ ∃ e ∈ callEdgesOf edges,
      containsWord name e.context ∧ nodeWithId? nodes e.source = some site.1 ∧
        e.context = site.2 := by
  have hall (text : String) : passesFilter "" text := rfl
  obtain ⟨n, context⟩ := site
  simp only [Report.callSites, hall, Bool.and_true, mem_filterMap]
  refine exists_congr fun e => and_congr_right fun _ => ?_
  by_cases hword : containsWord name e.context
  · simp [hword]
  · simp [hword]

/-- **Which calls are found.** In a file of any language the functions and methods stand for its
routines. One of them is listed as a caller of a name exactly if what is kept of the text of one of
its calls holds the name as a whole word. That is so for every call whose callee ends in the name
within the part of the text that is kept. -/
theorem callSites_extracted (l : Language) (file : String) (parsed : Parsed) (em : Emission)
    (hem : extractSymbols l.name file parsed = .ok em) (name : String) :
    List.Forall₂ (Routine.Stands ⟨file, l.name, parsed⟩) (l.routines ⟨file, l.name, parsed⟩)
      (em.nodes.filter isRoutine) ∧
    (∀ id, (∃ site ∈ Report.callSites em.nodes em.edges name "" "", site.1.id = id) ↔
      ∃ r t callee, l.CallIn ⟨file, l.name, parsed⟩ r t callee ∧ r.id = id ∧
        containsWord name (l.keptText ⟨file, l.name, parsed⟩ t callee) = true) ∧
    (∀ r t callee before after, l.CallIn ⟨file, l.name, parsed⟩ r t callee → EndsIn callee name →
      SetOff (orEmpty (parsed.text t)) callee before after →
        before.length + callee.length ≤ contextLength →
      ∃ site ∈ Report.callSites em.nodes em.edges name "" "", site.1.id = r.id) := by
  have hlisted (id : String) :
      (∃ site ∈ Report.callSites em.nodes em.edges name "" "", site.1.id = id) ↔
      ∃ r t callee, l.CallIn ⟨file, l.name, parsed⟩ r t callee ∧ r.id = id ∧
        containsWord name (l.keptText ⟨file, l.name, parsed⟩ t callee) = true := by
    constructor
    · rintro ⟨site, hsite, rfl⟩
      obtain ⟨e, he, hword, hnode, -⟩ := mem_callSites_iff.1 hsite
      obtain ⟨r, t, callee, hcall, rfl⟩ := (Language.mem_callEdges_iff hem).1 he
      exact ⟨r, t, callee, hcall, (id_of_nodeWithId? hnode).symm, hword⟩
    · rintro ⟨r, t, callee, hcall, rfl, hword⟩
      have he := (Language.mem_callEdges_iff hem).2 ⟨r, t, callee, hcall, rfl⟩
      -- the call comes from the routine, and the routine has a node
      obtain ⟨n, hn, hstands⟩ := Language.exists_stands hem hcall.routine
      obtain ⟨m, hm⟩ := exists_nodeWithId? hn
      rw [hstands.id] at hm
      exact ⟨(m, _), mem_callSites_iff.2 ⟨_, he, hword, hm, rfl⟩, id_of_nodeWithId? hm⟩
  refine ⟨Language.forall₂_stands hem, hlisted, fun r t callee before after hcall hends hoff hlen =>
    ?_⟩
  exact (hlisted r.id).2 ⟨r, t, callee, hcall, rfl, hoff.containsWord_keptText hends hlen l⟩

def shortCall : Tree :=
  .node "function_call_expression" 21 24 [.node "name" 21 22 []]

def longCall : Tree :=
  .node "member_call_expression" 26 232 [.node "variable_name" 26 227 [], .node "name" 229 230 []]

def twoCalls : Tree :=
  .node "compound_statement" 19 235 [shortCall, longCall]

def longReceiver : Parsed where
  bytes := Text.Utf8.encode "<?php function f() \x7b g(); $" ++ List.replicate 200 120 ++
    Text.Utf8.encode "->h(); \x7d"
  root := .node "program" 0 235 [.node "function_definition" 6 235 [.node "name" 15 16 [],
    twoCalls]]

theorem callIn_longReceiver :
    ∃ r, Language.php.CallIn ⟨"a.php", Language.php.name, longReceiver⟩ r shortCall "g" ∧
    Language.php.CallIn ⟨"a.php", Language.php.name, longReceiver⟩ r longCall "h" ∧
    ∀ r' t callee, Language.php.CallIn ⟨"a.php", Language.php.name, longReceiver⟩ r' t callee →
      t = shortCall ∨ t = longCall := by
  have hname :
      orEmpty (longReceiver.childText (.node "function_definition" 6 235 [.node "name" 15 16 [],
        twoCalls])
        "name") ≠ "" := by
    decide +kernel
  have hroutine : ∃ r, Language.php.routines ⟨"a.php", Language.php.name, longReceiver⟩ = [r] ∧
      r.bodies = [twoCalls] :=
    ⟨_, (append_nil _).trans (if_neg (by simpa using hname)), rfl⟩
  obtain ⟨r, hroutines, hbodies⟩ := hroutine
  have hr : r ∈ Language.php.routines ⟨"a.php", Language.php.name, longReceiver⟩ := by
    simp [hroutines]
  have hbody : twoCalls ∈ r.bodies := by simp [hbodies]
  refine ⟨r, ⟨hr, ⟨twoCalls, hbody, ?_⟩, ?_⟩, ⟨hr, ⟨twoCalls, hbody, ?_⟩, ?_⟩, ?_⟩
  · simp [Tree.preorder, Tree.preorderAll, twoCalls, shortCall]
  · decide +kernel
  · simp [Tree.preorder, Tree.preorderAll, twoCalls, shortCall, longCall]
  · decide +kernel
  · rintro r' t callee ⟨hr', ⟨body, hbody, ht⟩, hcallee⟩
    rw [hroutines, mem_singleton] at hr'
    rw [hr', hbodies, mem_singleton] at hbody
    rw [hbody] at ht
    simp only [Tree.preorder, Tree.preorderAll, twoCalls, shortCall, longCall, mem_cons, append_nil,
      nil_append, cons_append, not_mem_nil, or_false] at ht
    -- the other tree nodes of the body call nothing
    rcases ht with rfl | rfl | rfl | rfl | rfl | rfl
    · cases hcallee
    · exact .inl rfl
    · cases hcallee
    · exact .inr rfl
    · cases hcallee
    · cases hcallee

def longText : List Char :=
  '$' :: (List.replicate 200 'x' ++ "->h()".toList)

theorem not_containsWord_longCall (callee : String) :
    ¬ containsWord "h"
      (Language.php.keptText ⟨"a.php", Language.php.name, longReceiver⟩ longCall callee) =
        true := by
  -- only lists are evaluated: a string of this length is slow to read
  have hdecode : Text.Utf8.decodeFrom 0 (longReceiver.slice longCall) = .ok longText :=
    Extract.eq_ok_of_toOption (by decide +kernel)
  have htext : orEmpty (longReceiver.text longCall) = String.ofList longText := by
    rw [Parsed.text, Text.Utf8.decode, hdecode]
    rfl
  have hne : orEmpty (longReceiver.text longCall) ≠ "" := by
    intro hempty
    have hnil := congrArg String.toList (htext.symm.trans hempty)
    rw [String.toList_ofList] at hnil
    cases hnil
  have hcut :
      (cut contextLength (String.ofList longText)).toList = longText.take contextLength := by
    rw [cut, String.toList_ofList, String.toList_ofList]
  rw [Language.keptText_of_text callee hne, htext, containsWord, hcut]
  decide +kernel

theorem callSites_extracted_longReceiver :
    ∃ em, extractSymbols Language.php.name "a.php" longReceiver = .ok em ∧
      ∃ r, Language.php.CallIn ⟨"a.php", Language.php.name, longReceiver⟩ r shortCall "g" ∧
        (∃ site ∈ Report.callSites em.nodes em.edges "g" "" "", site.1.id = r.id) ∧
        Language.php.CallIn ⟨"a.php", Language.php.name, longReceiver⟩ r longCall "h" ∧
          EndsIn "h" "h" ∧
        ¬ ∃ site ∈ Report.callSites em.nodes em.edges "h" "" "", site.1.id = r.id := by
  obtain ⟨em, hem⟩ := Extract.exists_eq_ok
    (show (extractSymbols Language.php.name "a.php" longReceiver).toOption.isSome =
      true by decide +kernel)
  obtain ⟨r, hshort, hlong, hcalls⟩ := callIn_longReceiver
  have hfound := callSites_extracted .php "a.php" longReceiver em hem
  refine ⟨em, hem, r, hshort, ?_, hlong, .self (by decide) (by decide), ?_⟩
  · refine (hfound "g").2.2 r shortCall "g" [] "()".toList hshort ?_ ?_ ?_
    · exact .self (by decide) (by decide)
    · exact ⟨by decide +kernel, rfl, by decide +kernel⟩
    · decide
  · rw [(hfound "h").2.1]
    rintro ⟨r', t, callee, hcall, -, hword⟩
    rcases hcalls r' t callee hcall with rfl | rfl
    · rw [Language.keptText_of_text callee (by decide +kernel)] at hword
      revert hword
      decide +kernel
    · exact not_containsWord_longCall callee hword

end CodeAtlas
