import Mathlib.Data.List.Chain
import CodeAtlas.Proofs.LetterCase

/-!
# Bare names

A name without a separator is its own bare name, and the bare name of any name is one
(`bareName_eq_self_iff`, `bareName_bareName`). A single colon separates nothing, so that two colons
count only side by side.
-/

namespace CodeAtlas

open List

/-- No separator is in a name. -/
structure Unseparated (cs : List Char) : Prop where
  marks : ∀ c ∈ cs, c ≠ '\\' ∧ c ≠ '.'
  colons : cs.IsChain fun a b => ¬ (a = ':' ∧ b = ':')

variable {cs : List Char}

theorem unseparated_cons_iff {c : Char} : Unseparated (c :: cs) ↔
    (c ≠ '\\' ∧ c ≠ '.') ∧ ¬ (c = ':' ∧ cs.head? = some ':') ∧ Unseparated cs := by
  constructor
  · intro h
    obtain ⟨hmark, hmarks⟩ := forall_mem_cons.1 h.marks
    obtain ⟨hcolon, hcolons⟩ := isChain_cons.1 h.colons
    exact ⟨hmark, fun hboth => hcolon ':' hboth.2 ⟨hboth.1, rfl⟩, hmarks, hcolons⟩
  · rintro ⟨hmark, hcolon, hrest⟩
    refine ⟨forall_mem_cons.2 ⟨hmark, hrest.marks⟩, isChain_cons.2 ⟨?_, hrest.colons⟩⟩
    rintro d hd ⟨hc, rfl⟩
    exact hcolon ⟨hc, hd⟩

theorem unseparated_of_forall (h : ∀ c ∈ cs, c ≠ '\\' ∧ c ≠ '.' ∧ c ≠ ':') : Unseparated cs := by
  refine ⟨fun c hc => ⟨(h c hc).1, (h c hc).2.1⟩, isChain_iff_getElem.2 fun i hi => ?_⟩
  rintro ⟨ha, -⟩
  exact (h _ (getElem_mem _)).2.2 ha

theorem Unseparated.reverse (h : Unseparated cs) : Unseparated cs.reverse where
  marks c hc := h.marks c (mem_reverse.1 hc)
  colons := isChain_reverse.2 (h.colons.imp fun _ _ hab hba => hab ⟨hba.2, hba.1⟩)

theorem lastSegmentFrom_of_unseparated (segment : List Char) (h : Unseparated cs) :
    lastSegmentFrom true segment cs = segment.reverse ++ cs := by
  fun_induction lastSegmentFrom true segment cs with
  | case1 segment => rw [append_nil]
  | case2 segment cs ih => exact absurd ⟨rfl, rfl⟩ (unseparated_cons_iff.1 h).2.1
  | case3 segment c cs hcolons hcut ih =>
    obtain ⟨hmark, -⟩ := unseparated_cons_iff.1 h
    simp [hmark] at hcut
  | case4 segment c cs hcolons hcut ih =>
    rw [ih (unseparated_cons_iff.1 h).2.2, reverse_cons, append_assoc, singleton_append]

theorem unseparated_lastSegmentFrom {segment : List Char} (hsegment : Unseparated segment)
    (hjoin : ¬ (segment.head? = some ':' ∧ cs.head? = some ':')) :
    Unseparated (lastSegmentFrom true segment cs) := by
  have hnil : Unseparated [] := ⟨fun c hc => absurd hc not_mem_nil, .nil⟩
  fun_induction lastSegmentFrom true segment cs with
  | case1 segment => exact hsegment.reverse
  | case2 segment cs ih => exact ih hnil (by simp)
  | case3 segment c cs hcolons hcut ih => exact ih hnil (by simp)
  | case4 segment c cs hcolons hcut ih =>
    have hmark : c ≠ '\\' ∧ c ≠ '.' := by simpa using hcut
    refine ih (unseparated_cons_iff.2 ⟨hmark, ?_, hsegment⟩) ?_
    · rintro ⟨rfl, hhead⟩
      exact hjoin ⟨hhead, rfl⟩
    · rintro ⟨hc, hhead⟩
      obtain ⟨rest, rfl⟩ := head?_eq_some_iff.1 hhead
      exact hcolons rest (Option.some.inj hc) rfl

theorem unseparated_bareName (name : String) : Unseparated (bareName name).toList := by
  rw [bareName, lastSegment, String.toList_ofList]
  exact unseparated_lastSegmentFrom ⟨fun c hc => absurd hc not_mem_nil, .nil⟩ (by simp)

theorem bareName_eq_self_iff {name : String} : bareName name = name ↔ Unseparated name.toList := by
  constructor
  · intro h
    rw [← h]
    exact unseparated_bareName name
  · intro h
    rw [← String.toList_inj, bareName, lastSegment, String.toList_ofList,
      lastSegmentFrom_of_unseparated [] h]
    rfl

theorem bareName_bareName (name : String) : bareName (bareName name) = bareName name :=
  bareName_eq_self_iff.2 (unseparated_bareName name)

theorem bareName_eq_self_of_lower_eq {name word : String} (hword : ∀ c ∈ word.toList, Text.isWord c)
    (h : Text.lower name = Text.lower word) : bareName name = name := by
  have hchars : Text.lowerChars name.toList = Text.lowerChars word.toList :=
    String.ofList_injective h
  -- lower case keeps the separators, so the word would hold them too
  have hnot {d : Char} (hmark : d.toNat < 128 ∧ d.isAlpha = false) (hd : Text.isWord d = false) :
      d ∉ name.toList := by
    intro hmem
    rw [← Text.mem_lowerChars_iff hmark, hchars, Text.mem_lowerChars_iff hmark] at hmem
    rw [hword d hmem] at hd
    cases hd
  have hslash : '\\' ∉ name.toList := hnot (by decide) (by decide)
  have hdot : '.' ∉ name.toList := hnot (by decide) (by decide)
  have hcolon : ':' ∉ name.toList := hnot (by decide) (by decide)
  refine bareName_eq_self_iff.2 (unseparated_of_forall fun c hc => ⟨?_, ?_, ?_⟩)
  · exact fun h => hslash (h ▸ hc)
  · exact fun h => hdot (h ▸ hc)
  · exact fun h => hcolon (h ▸ hc)

end CodeAtlas
