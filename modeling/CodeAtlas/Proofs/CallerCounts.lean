import Mathlib.Data.Finset.Card
import Mathlib.Data.List.TakeWhile
import CodeAtlas.Analysis.Hotspot
import CodeAtlas.Proofs.Leading
import CodeAtlas.Proofs.LetterCase
import CodeAtlas.Proofs.OrderedMap

/-!
# Callers that a ranking counts

A ranking of hotspots counts the callers of a symbol by the callee that it reads off each call. A
report on usages looks for the name anywhere in the text of the call instead.
-/

namespace CodeAtlas

open List
open Text (isBlank isWord lower lowerChars trimList)
open Hotspot (callersOf hotspots)

theorem exists_lastPiece (isCut : Char → Bool) (cs : List Char) :
    ∃ front, cs = front ++ lastPiece isCut cs ∧ (∀ c, front.getLast? = some c →
      isCut c) := by
  refine ⟨(cs.reverse.dropWhile fun c => !isCut c).reverse, ?_, ?_⟩
  · rw [lastPiece, ← reverse_append, takeWhile_append_dropWhile, reverse_reverse]
  · intro c hc
    rw [getLast?_reverse] at hc
    have hstop := head?_dropWhile_not (fun c => !isCut c) cs.reverse
    rw [hc] at hstop
    simpa using hstop

variable {isCut : Char → Bool} {c : Char} {edges : List Edge} {name source : String}

theorem not_isCut_of_mem_lastPiece {cs : List Char} (hc : c ∈ lastPiece isCut cs) :
    isCut c = false := by
  have hmem := mem_reverse.1 hc
  simpa using mem_takeWhile_imp hmem

theorem lastPiece_append {front piece : List Char} (hfront : ∀ c, front.getLast? = some c →
    isCut c)
    (hpiece : ∀ c ∈ piece, isCut c = false) : lastPiece isCut (front ++ piece) = piece := by
  have hstop : front.reverse.takeWhile (fun c => !isCut c) = [] := by
    rcases eq_nil_or_concat front with rfl | ⟨front, c, rfl⟩
    · rfl
    · rw [concat_eq_append] at hfront ⊢
      rw [reverse_append, reverse_singleton, singleton_append, takeWhile_cons_of_neg]
      simp [hfront c getLast?_concat]
  rw [lastPiece, reverse_append, takeWhile_append_of_pos (by simpa using hpiece), hstop, append_nil,
    reverse_reverse]

theorem trimList_eq_self {p : Char → Bool} {cs : List Char} (h : ∀ c ∈ cs, p c = false) :
    trimList p cs = cs := by
  have hkeep (ds : List Char) (hds : ∀ c ∈ ds, p c = false) : ds.dropWhile p = ds := by
    cases ds with
    | nil => rfl
    | cons c rest => exact dropWhile_cons_of_neg (by simp [hds c mem_cons_self])
  rw [trimList, Text.dropLeading, hkeep cs h, Text.dropTrailing, hkeep _ (by simpa using h),
    reverse_reverse]

/-- Where a text without parentheses is cut to find the callee. -/
def isCalleeEnd (c : Char) : Bool :=
  c == ':' || c == '.' || isBlank c

theorem toList_calleeName (context : String) : (calleeName context).toList =
    (lastCalled? context.toList).getD (lastPiece isCalleeEnd context.toList) := by
  have htrim : trimList isBlank (lastPiece isCalleeEnd context.toList) =
      lastPiece isCalleeEnd context.toList := by
    refine trimList_eq_self fun c hc => ?_
    have hcut := not_isCut_of_mem_lastPiece hc
    simp only [isCalleeEnd, Bool.or_eq_false_iff] at hcut
    exact hcut.2
  show (String.ofList ((lastCalled? context.toList).getD
    (trimList isBlank (lastPiece isCalleeEnd context.toList)))).toList = _
  rw [htrim, String.toList_ofList]

theorem isWord_of_isCalleeEnd (h : isCalleeEnd c) : isWord c = false := by
  simp only [isCalleeEnd, Bool.or_eq_true, beq_iff_eq] at h
  rcases h with (rfl | rfl) | hblank
  · decide
  · decide
  · exact Text.isWord_of_isBlank hblank

theorem not_isCalleeEnd_of_mem_calleeName {context : String}
    (hc : c ∈ (calleeName context).toList) : isCalleeEnd c = false := by
  rw [toList_calleeName] at hc
  cases hcalled : lastCalled? context.toList with
  | none =>
    rw [hcalled] at hc
    exact not_isCut_of_mem_lastPiece hc
  | some word =>
    rw [hcalled] at hc
    obtain ⟨pre, post, -, hisolated⟩ := isolated_lastCalled hcalled
    have hword := hisolated.letters c hc
    by_contra hend
    rw [isWord_of_isCalleeEnd (by simpa using hend)] at hword
    cases hword

/-- A callee that is a word stands in the text of its call as a whole word. -/
theorem isolated_calleeName {context : String} (hne : (calleeName context).toList ≠ [])
    (hword : ∀ c ∈ (calleeName context).toList, isWord c) :
    ∃ pre post, context.toList = pre ++ ((calleeName context).toList ++ post) ∧
      Text.Isolated pre (calleeName context).toList post := by
  rw [toList_calleeName] at hne hword ⊢
  cases hcalled : lastCalled? context.toList with
  | some word => exact isolated_lastCalled hcalled
  | none =>
    rw [hcalled] at hne hword
    -- without a parenthesis the callee ends the text
    obtain ⟨front, hfront, hcut⟩ := exists_lastPiece isCalleeEnd context.toList
    refine ⟨front, [], by rw [append_nil]; exact hfront, hne, hword, ?_, rfl⟩
    cases hlast : front.getLast? with
    | none => rfl
    | some c => exact isWord_of_isCalleeEnd (hcut c hlast)

/-! ## Callers in either sense

A node may call a name, or only mention it. Both are sets of sources, the one within the other. -/

/-- A call is a call of a name, case ignored. -/
def CallsName (e : Edge) (name : String) : Prop :=
  lower (calleeName e.context) = lower name ∧ name ≠ ""

instance (e : Edge) (name : String) : Decidable (CallsName e name) :=
  inferInstanceAs (Decidable (_ ∧ _))

def calledBy (edges : List Edge) (name : String) : Finset String :=
  (((callEdgesOf edges).filter fun e => CallsName e name).map (·.source)).toFinset

/-- The sources of the calls whose text holds a name as a whole word, case ignored. -/
def mentionedBy (edges : List Edge) (name : String) : Finset String :=
  (((callEdgesOf edges).filter fun e => Text.containsWord name e.context).map (·.source)).toFinset

theorem mem_calledBy_iff :
    source ∈ calledBy edges name ↔ ∃ e ∈ callEdgesOf edges, CallsName e name ∧
      e.source = source := by
  simp [calledBy, and_assoc]

theorem mem_mentionedBy_iff : source ∈ mentionedBy edges name ↔
    ∃ e ∈ callEdgesOf edges, Text.containsWord name e.context ∧ e.source = source := by
  simp [mentionedBy, and_assoc]

theorem lower_eq_empty_iff : lower name = "" ↔ name = "" := by
  rw [lower, ← String.toList_inj, String.toList_ofList, ← String.toList_inj]
  cases name.toList with
  | nil => exact Iff.rfl
  | cons c rest =>
    simp only [lowerChars, Text.lowerAfter]
    split
    · split <;> simp
    · split <;> simp

theorem mem_callersOf_iff :
    source ∈ callersOf edges (lower name) ↔
      ∃ e ∈ callEdgesOf edges, CallsName e name ∧ e.source = source := by
  simp only [callersOf, mem_distinct, mem_map, mem_filter, and_assoc]
  refine exists_congr fun e => and_congr_right fun _ => and_congr_left fun _ => ?_
  simp only [Bool.and_eq_true, Bool.not_eq_true', beq_iff_eq, String.isEmpty_eq_false_iff]
  constructor
  · rintro ⟨hne, hlow⟩
    exact ⟨hlow, fun hname => hne (hlow.trans (lower_eq_empty_iff.2 hname))⟩
  · rintro ⟨hlow, hname⟩
    exact ⟨fun hempty => hname (lower_eq_empty_iff.1 (hlow.symm.trans hempty)), hlow⟩

theorem length_callersOf (edges : List Edge) (name : String) :
    (callersOf edges (lower name)).length = (calledBy edges name).card := by
  have hset : (callersOf edges (lower name)).toFinset = calledBy edges name := by
    ext source
    rw [mem_toFinset, mem_callersOf_iff, mem_calledBy_iff]
  rw [← hset]
  exact (toFinset_card_of_nodup (nodup_distinct _)).symm

theorem calledBy_subset_mentionedBy (edges : List Edge) (hname : Text.IsIdentifier name.toList) :
    calledBy edges name ⊆ mentionedBy edges name := by
  intro source hsource
  obtain ⟨e, he, ⟨hlow, hne⟩, rfl⟩ := mem_calledBy_iff.1 hsource
  have hchars : lowerChars (calleeName e.context).toList = lowerChars name.toList :=
    String.ofList_injective hlow
  obtain ⟨hsame, hword⟩ := Text.sameLetters_of_lower_eq hname hchars
  have hcallee : (calleeName e.context).toList ≠ [] := by
    intro hnil
    rw [hnil] at hsame
    exact hname.ne_nil (forall₂_nil_right_iff.1 hsame)
  obtain ⟨pre, post, hcontext, hisolated⟩ := isolated_calleeName hcallee hword
  exact mem_mentionedBy_iff.2 ⟨e, he, hisolated.containsWord hcontext hsame, rfl⟩

theorem calledBy_eq_empty (hc : c = '.' ∨ c = ':') (hmem : c ∈ name.toList) :
    calledBy edges name = ∅ := by
  refine Finset.eq_empty_of_forall_notMem fun source hsource => ?_
  obtain ⟨e, -, ⟨hlow, -⟩, -⟩ := mem_calledBy_iff.1 hsource
  have hchars : lowerChars (calleeName e.context).toList = lowerChars name.toList :=
    String.ofList_injective hlow
  have hmark : c.toNat < 128 ∧ c.isAlpha = false := by rcases hc with rfl | rfl <;> decide
  -- lower case keeps the separator, so the callee would hold it too
  have hcallee : c ∈ (calleeName e.context).toList := by
    rw [← Text.mem_lowerChars_iff hmark, hchars, Text.mem_lowerChars_iff hmark]
    exact hmem
  have hend := not_isCalleeEnd_of_mem_calleeName hcallee
  rcases hc with rfl | rfl <;> simp [isCalleeEnd] at hend

theorem get?_callerCounts {nodes : List Node}
    (hnames : ∀ m ∈ nodes, ∀ n ∈ nodes, m.id = n.id → lower m.name = lower n.name) {n : Node}
    (hn : n ∈ nodes) :
    (Hotspot.callerCounts nodes edges).get? n.id = some (calledBy edges n.name).card := by
  have hcount := length_callersOf edges n.name
  refine OrderedMap.get?_ofList_of_mem ?_ fun count hpair => ?_
  · obtain ⟨members, hgroup, hmem⟩ :=
      OrderedMap.exists_mem_groupBy (fun n : Node => lower n.name) hn
    exact mem_flatMap.2 ⟨_, hgroup, mem_map.2 ⟨n, hmem, by rw [hcount]⟩⟩
  · -- the nodes with its identifier are all in the group of its name
    obtain ⟨⟨low, members⟩, hgroup, hpair⟩ := mem_flatMap.1 hpair
    obtain ⟨m, hm, hpair⟩ := mem_map.1 hpair
    obtain ⟨hid, rfl⟩ := Prod.mk.inj hpair
    obtain ⟨hnodes, rfl⟩ := OrderedMap.of_mem_groupBy (fun n : Node => lower n.name) hgroup hm
    rw [hnames m hnodes n hn hid]
    exact hcount

theorem callers_of_mem_hotspots {nodes : List Node} {fileChurn : Option (OrderedMap String Int)}
    {filters : Hotspot.Filters} {top : Int} {x : Hotspot.Entry Float}
    (hids : (nodes.map (·.id)).Nodup) (hx : x ∈ hotspots nodes edges fileChurn filters top) :
    x.node ∈ nodes ∧ x.callers = (calledBy edges x.node.name).card := by
  have hentry := mem_mergeSort.1 (mem_of_mem_leading hx)
  obtain ⟨n, hn, rfl⟩ := mem_map.1 hentry
  have hcandidates : ∀ m ∈ nodes.filter filters.pass, ∀ n ∈ nodes.filter filters.pass, m.id = n.id →
      lower m.name = lower n.name := by
    intro m hm n hn hid
    rw [inj_on_of_nodup_map hids (mem_of_mem_filter hm) (mem_of_mem_filter hn) hid]
  refine ⟨mem_of_mem_filter hn, ?_⟩
  show ((Hotspot.callerCounts (nodes.filter filters.pass) edges).get? n.id).getD 0 =
      (calledBy edges n.name).card
  rw [get?_callerCounts hcandidates hn]
  rfl

/-- **What the number of callers is.** A ranking of nodes with identifiers of their own counts, for
each node, the sources of the calls whose callee has the name of the node. For an identifier these
are some of the sources that mention it, and all of them exactly if every source that mentions it
also calls it. For a name with a separator in it, such as that of a method with its class, nobody is
counted. -/
theorem callers_hotspots (nodes : List Node) (edges : List Edge)
    (fileChurn : Option (OrderedMap String Int)) (filters : Hotspot.Filters) (top : Int)
    (hids : (nodes.map (·.id)).Nodup) (x : Hotspot.Entry Float)
    (hx : x ∈ hotspots nodes edges fileChurn filters top) :
    x.callers = (calledBy edges x.node.name).card ∧
    (Text.IsIdentifier x.node.name.toList →
      calledBy edges x.node.name ⊆ mentionedBy edges x.node.name ∧
        (x.callers = (mentionedBy edges x.node.name).card ↔
          mentionedBy edges x.node.name ⊆ calledBy edges x.node.name)) ∧
    ('.' ∈ x.node.name.toList ∨ ':' ∈ x.node.name.toList → x.callers = 0) := by
  obtain ⟨-, hcallers⟩ := callers_of_mem_hotspots hids hx
  refine ⟨hcallers, fun hname => ?_, fun hseparator => ?_⟩
  · have hsubset := calledBy_subset_mentionedBy edges hname
    refine ⟨hsubset, fun hcard => ?_, fun hback => ?_⟩
    · exact (Finset.eq_of_subset_of_card_le hsubset (by omega)).superset
    · rw [hcallers, hsubset.antisymm hback]
  · rw [hcallers, Finset.card_eq_zero]
    rcases hseparator with hdot | hcolon
    · exact calledBy_eq_empty (.inl rfl) hdot
    · exact calledBy_eq_empty (.inr rfl) hcolon

def totalFunction : Node :=
  { id := "1", kind := .function, name := "total",
    loc := { file := "shop.py", first := 1, last := 2 }
    language := "python" }

def totalMethod : Node :=
  { id := "2", kind := .method, name := "Cart.total",
    loc := { file := "shop.py", first := 4, last := 5 }
    language := "python" }

def totalCalls : List Edge :=
  [{ source := "3", target := "", relation := .calls, context := "total(cart)" },
   { source := "4", target := "", relation := .calls, context := "Cart.total(cart)" },
   { source := "5", target := "", relation := .calls, context := "show(total)" }]

theorem callers_hotspots_total :
    (∃ x ∈ hotspots [totalFunction] totalCalls none {} 1, x.callers = 2 ∧
      (mentionedBy totalCalls "total").card = 3 ∧
        ¬ mentionedBy totalCalls "total" ⊆ calledBy totalCalls "total") ∧
    (∃ x ∈ hotspots [totalMethod] totalCalls none {} 1, x.callers = 0 ∧
      (mentionedBy totalCalls "Cart.total").card = 1) := by
  have hentry (n : Node) : ∃ x ∈ hotspots [n] totalCalls none {} 1, x.node = n := by
    have hpass : [n].filter ({} : Hotspot.Filters).pass = [n] := rfl
    have hlength : (hotspots [n] totalCalls none {} 1).length = 1 := by
      simp [hotspots, Hotspot.rank, leading, hpass]
    obtain ⟨x, hx⟩ := length_eq_one_iff.1 hlength
    have hmem : x ∈ hotspots [n] totalCalls none {} 1 := hx ▸ mem_singleton_self x
    have hids : ([n].map (·.id)).Nodup := nodup_singleton n.id
    exact ⟨x, hmem, mem_singleton.1 (callers_of_mem_hotspots hids hmem).1⟩
  constructor
  · obtain ⟨x, hx, hnode⟩ := hentry totalFunction
    obtain ⟨hcallers, hidentifier, -⟩ :=
      callers_hotspots [totalFunction] totalCalls none {} 1 (by decide) x hx
    rw [hnode] at hcallers hidentifier
    have hcount : x.callers = 2 := hcallers.trans (by decide +kernel)
    have hmentions : (mentionedBy totalCalls "total").card = 3 := by decide +kernel
    have hletters : "total".toList.all (fun c => c.toNat < 128 && isWord c) = true := by decide
    have hname : Text.IsIdentifier "total".toList :=
      ⟨by decide, fun c hc => by simpa using all_eq_true.1 hletters c hc⟩
    refine ⟨x, hx, hcount, hmentions, fun hback => ?_⟩
    have hsame : x.callers = (mentionedBy totalCalls "total").card := (hidentifier hname).2.2 hback
    omega
  · obtain ⟨x, hx, hnode⟩ := hentry totalMethod
    refine ⟨x, hx, ?_, by decide +kernel⟩
    refine (callers_hotspots [totalMethod] totalCalls none {} 1 (by decide) x hx).2.2 (.inl ?_)
    rw [hnode]
    decide

end CodeAtlas
