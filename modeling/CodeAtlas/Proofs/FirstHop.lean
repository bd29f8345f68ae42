import CodeAtlas.Proofs.BareNames
import CodeAtlas.Proofs.CallerCounts
import CodeAtlas.Proofs.CallSites
import CodeAtlas.Report.Explain

/-!
# Direct callers in two reports

The report on one symbol and the walk through callers both look for callers by a short form of the
name. The report takes the name apart at `::` and backslashes, the walk at dots as well.
-/

namespace CodeAtlas

open List
open Text (containsWord isWord wordEdge)

/-- Both forms are read off together; what the walk remembers of a segment starts behind its last
dot. -/
theorem lastSegmentFrom_true (segment cs : List Char) :
    lastSegmentFrom true (segment.takeWhile (· != '.')) cs =
      lastPiece (· == '.') (lastSegmentFrom false segment cs) := by
  fun_induction lastSegmentFrom false segment cs with
  | case1 segment =>
    rw [lastSegmentFrom, lastPiece, reverse_reverse]
    rfl
  | case2 segment cs ih =>
    rw [lastSegmentFrom]
    exact ih
  | case3 segment c cs hcolons hcut ih =>
    have hslash : c = '\\' := by simpa using hcut
    rw [lastSegmentFrom, if_pos (by simp [hslash])]
    · exact ih
    · exact hcolons
  | case4 segment c cs hcolons hcut ih =>
    have hslash : ¬ c = '\\' := by simpa using hcut
    rw [lastSegmentFrom]
    · by_cases hdot : c = '.'
      · -- the walk forgets the segment, of which nothing stands behind the dot yet
        rw [if_pos (by simp [hdot]), ← ih, hdot]
        rfl
      · rw [if_neg (by simp [hslash, hdot]), ← ih, takeWhile_cons_of_pos (by simpa using hdot)]
    · exact hcolons

/-- The bare name is the last piece, between dots, of what the report looks for. -/
theorem toList_bareName (name : String) :
    (bareName name).toList = lastPiece (· == '.') (lastSegment false name).toList := by
  rw [bareName, lastSegment, lastSegment, String.toList_ofList, String.toList_ofList]
  exact lastSegmentFrom_true [] name.toList

theorem dot_not_mem_bareName (name : String) : '.' ∉ (bareName name).toList := by
  intro hdot
  exact ((unseparated_bareName name).marks '.' hdot).2 rfl

variable {name : String} {nodes : List Node} {m : Node}

theorem bareName_eq_lastSegment (hdot : '.' ∉ (lastSegment false name).toList) :
    bareName name = lastSegment false name := by
  rw [← String.toList_inj, toList_bareName, lastPiece, takeWhile_eq_self_iff.2 ?_, reverse_reverse]
  intro c hc
  have hne : c ≠ '.' := fun h => hdot (h ▸ mem_reverse.1 hc)
  simpa using hne

/-! ## Names in texts

For every name there is a text that holds it alone; it serves to tell the two reports apart. -/

theorem eq_dot_of_sameLetter {c : Char} (h : Text.sameLetter '.' c) : c = '.' := by
  have hlow : Text.lowerChar '.' = '.' := by decide
  have hnone : (Text.sharedLetters.lookup ('.').toNat).getD [] = [] := by decide +kernel
  rw [Text.sameLetter, hlow, hnone] at h
  simp only [contains_nil, Bool.and_false, Bool.or_false, beq_iff_eq] at h
  exact (Text.lowerChar_eq_iff (by decide)).1 h.symm

/-- A name with a dot is not a whole word of a text without one. -/
theorem not_containsWord_of_dot {text : String} (hname : '.' ∈ name.toList)
    (htext : '.' ∉ text.toList) : containsWord name text = false := by
  by_contra hword
  obtain ⟨pre, word, post, hspelled, hsame, -⟩ := Text.containsWord_iff.1 (by simpa using hword)
  obtain ⟨i, hi, hdot⟩ := getElem_of_mem hname
  have hi' : i < word.length := hsame.length_eq ▸ hi
  have hletter := hsame.get hi hi'
  rw [get_eq_getElem, hdot] at hletter
  refine htext ?_
  rw [hspelled, ← eq_dot_of_sameLetter hletter]
  simp

/-- What makes a text end at a word edge: a letter behind a last character that is none. -/
def closing (text : List Char) : List Char :=
  if text.getLast?.any isWord then [] else ['x']

/-- What goes before a name to make it start at a word edge. -/
def opening (name : List Char) : List Char :=
  if name.head?.any isWord then [] else ['x']

/-- A text that has a name as a whole word, and no dot but those of the name. -/
def alone (name : List Char) : List Char :=
  opening name ++ (name ++ closing (opening name ++ name))

theorem wordEdge_closing (text : List Char) :
    wordEdge text.getLast? (closing text).head? = true := by
  have hx : isWord 'x' := by decide
  unfold closing
  split
  · next hlast => simp [wordEdge, hlast]
  · next hlast => simp [wordEdge, hlast, hx]

theorem wordEdge_opening (name : List Char) :
    wordEdge (opening name).getLast? (name ++ closing (opening name ++ name)).head? = true := by
  have hx : isWord 'x' := by decide
  cases name with
  | nil => decide
  | cons c rest =>
    by_cases hc : isWord c
    · simp [opening, wordEdge, hc]
    · simp [opening, wordEdge, hc, hx]

/-- Every name is a whole word of some text that adds no dot. -/
theorem containsWord_alone (name : String) :
    containsWord name (String.ofList (alone name.toList)) := by
  rw [Text.containsWord_iff, String.toList_ofList]
  exact ⟨opening name.toList, name.toList, _, rfl, .refl _, wordEdge_opening _, wordEdge_closing _⟩

theorem dot_not_mem_alone {name : List Char} (h : '.' ∉ name) : '.' ∉ alone name := by
  have hletter (p : Prop) [Decidable p] : '.' ∉ if p then [] else ['x'] := by split <;> decide
  simp only [alone, opening, closing, mem_append, not_or]
  exact ⟨hletter _, h, hletter _⟩

open Report

def explainedCallers (a : Audience) (nodes : List Node) (edges : List Edge) (name : String) :
    List Node :=
  (explained a nodes name).flatMap (directCallers nodes (callEdgesOf edges))

def firstCallers (nodes : List Node) (edges : List Edge) (name : String) (depth : Int) :
    List Node :=
  ((callerHops nodes (callEdgesOf edges) (clampDepth depth) [name] []).head?.getD []).map (·.1)

theorem mem_directCallers_iff {calls : List Edge} {n : Node} :
    m ∈ directCallers nodes calls n ↔ ∃ e ∈ calls,
      containsWord (lastSegment false n.name) e.context ∧
        nodeWithId? nodes e.source = some m := by
  simp only [directCallers, mem_filterMap]
  refine exists_congr fun e => and_congr_right fun _ => ?_
  split
  · next hword => simp [hword]
  · next hword => simp [hword]

theorem mem_callersOf_single_iff {calls : List Edge} {site : Node × String} :
    site ∈ callersOf nodes calls [name] [] ↔ site.2 = name ∧ ∃ e ∈ calls,
      containsWord (bareName name) e.context ∧ nodeWithId? nodes e.source = some site.1 := by
  obtain ⟨m, via⟩ := site
  simp only [callersOf, mem_filterMap]
  constructor
  · rintro ⟨e, he, hsite⟩
    obtain ⟨found, hfound, hsite⟩ := Option.bind_eq_some_iff.1 hsite
    obtain ⟨n, hn, hsite⟩ := Option.map_eq_some_iff.1 hsite
    obtain ⟨rfl, rfl⟩ := Prod.mk.inj hsite
    obtain rfl : found = name := mem_singleton.1 (mem_of_find?_eq_some hfound)
    have hword := find?_some hfound
    exact ⟨rfl, e, he, hword, (Option.filter_eq_some_iff.1 hn).1⟩
  · rintro ⟨rfl, e, he, hword, hnode⟩
    exact ⟨e, he, by simp [hword, hnode]⟩

theorem mem_firstCallers_iff {edges : List Edge} {depth : Int} :
    m ∈ firstCallers nodes edges name depth ↔ ∃ e ∈ callEdgesOf edges,
      containsWord (bareName name) e.context ∧ nodeWithId? nodes e.source = some m := by
  have hdepth : clampDepth depth = clampDepth depth - 1 + 1 := by
    unfold clampDepth
    omega
  -- the first hop is all that was found, in another order
  have hhop (site : Node × String) :
      site ∈ (callerHops nodes (callEdgesOf edges) (clampDepth depth) [name] []).head?.getD [] ↔
        site ∈ callersOf nodes (callEdgesOf edges) [name] [] := by
    rw [hdepth, callerHops]
    split
    · next hnone => simp [hnone]
    · exact mem_mergeSort
  rw [firstCallers, mem_map]
  constructor
  · rintro ⟨site, hsite, rfl⟩
    exact (mem_callersOf_single_iff.1 ((hhop site).1 hsite)).2
  · intro hcall
    exact ⟨(m, name), (hhop _).2 (mem_callersOf_single_iff.2 ⟨rfl, hcall⟩), rfl⟩

/-- A symbol that has its name to itself is the only one that is explained. -/
theorem mem_explainedCallers_iff {a : Audience} {edges : List Edge} {n : Node}
    (honly : nodesNamed (symbolsOf nodes) name = [n]) : m ∈ explainedCallers a nodes edges name ↔
      ∃ e ∈ callEdgesOf edges, containsWord (lastSegment false n.name) e.context ∧
        nodeWithId? nodes e.source = some m := by
  have hexplained : explained a nodes name = [n] := by
    rw [explained, honly]
    rfl
  rw [explainedCallers, hexplained, flatMap_singleton, mem_directCallers_iff]

/-- **When the two reports agree on direct callers.** For a name that one symbol of the index has to
itself, the report on the symbol collects the same callers as the first hop of the walk, whatever
the index, exactly if there is no dot in the last segment of the name between `::` and backslashes.
So they agree on the names of functions and on those of methods written with `::`, and not on those
of methods written with a dot. -/
theorem explainedCallers_agree_iff (a : Audience) (depth : Int) (name : String) :
    (∀ nodes edges n, nodesNamed (symbolsOf nodes) name = [n] → n.name = name →
      ∀ m, m ∈ explainedCallers a nodes edges name ↔ m ∈ firstCallers nodes edges name depth) ↔
    '.' ∉ (lastSegment false name).toList := by
  constructor
  · intro hagree hdot
    -- the symbol calls itself, in a text that mentions its bare name and has no dot
    let n : Node := { id := "", kind := .function, name := name, loc := ⟨"", 1, 1⟩, language := "" }
    let e : Edge := { source := "", target := "", relation := .calls
                      context := String.ofList (alone (bareName name).toList) }
    have hsegment : containsWord (lastSegment false name) e.context = false := by
      refine not_containsWord_of_dot hdot ?_
      rw [String.toList_ofList]
      exact dot_not_mem_alone (dot_not_mem_bareName name)
    have honly : nodesNamed (symbolsOf [n]) name = [n] := by
      simp [nodesNamed, symbolsOf, n, Node.isComment]
    have hfirst : n ∈ firstCallers [n] [e] name depth := by
      refine mem_firstCallers_iff.2 ⟨e, ?_, containsWord_alone (bareName name), ?_⟩
      · simp [callEdgesOf, e]
      · simp [nodeWithId?, n, e]
    have hexplained := (hagree [n] [e] n honly rfl n).2 hfirst
    obtain ⟨e', he', hword, -⟩ := (mem_explainedCallers_iff honly).1 hexplained
    rw [mem_singleton.1 (mem_of_mem_filter he')] at hword
    exact absurd hword (by simpa using hsegment)
  · intro hdot nodes edges n honly hname m
    rw [mem_explainedCallers_iff honly, mem_firstCallers_iff, bareName_eq_lastSegment hdot, hname]

example : '.' ∉ (lastSegment false "Shop\\Cart::total").toList ∧
    '.' ∈ (lastSegment false "Cart.total").toList := by
  decide +kernel

end CodeAtlas
