import CodeAtlas.Proofs.Cutting
import CodeAtlas.Proofs.JsonText
import CodeAtlas.Proofs.Leading
import CodeAtlas.Summary.Reply

/-!
# Replies of a language model

A reply gives as many summaries as are expected, and none of them is empty. A reply that spells a
list of texts, bare or between fences, gives these texts.
-/

namespace CodeAtlas.Json

open List

variable {cs rest t : List Char}

/-! ## Lists of texts

The ways in which the standard lets a list of texts be written. -/

def IsHex (c : Char) (n : Nat) : Prop :=
  "0123456789abcdef".toList[n]? = some c ∨ "0123456789ABCDEF".toList[n]? = some c

def IsUnit (a b c d : Char) (n : Nat) : Prop :=
  ∃ h i j k, IsHex a h ∧ IsHex b i ∧ IsHex c j ∧ IsHex d k ∧ n = ((h * 16 + i) * 16 + j) * 16 + k

def shortEscapes : List (Char × Char) :=
  [('"', '"'), ('\\', '\\'), ('/', '/'), ('b', '\x08'), ('f', '\x0c'), ('n', '\n'), ('r', '\r'),
    ('t', '\t')]

/-- What may stand for a character between quotes. -/
inductive CharText : List Char → Char → Prop
  | plain {c : Char} (hquote : c ≠ '"') (hslash : c ≠ '\\') (hsize : 32 ≤ c.toNat) : CharText [c] c
  | short {e c : Char} (h : (e, c) ∈ shortEscapes) : CharText ['\\', e] c
  | unit {a b c d : Char} {n : Nat} (h : IsUnit a b c d n) (hn : n < 0xD800 ∨ 0xDFFF < n) :
    CharText ['\\', 'u', a, b, c, d] (Char.ofNat n)
  | pair {a b c d a' b' c' d' : Char} {m n : Nat} (h : IsUnit a b c d (0xD800 + m)) (hm : m < 1024)
    (h' : IsUnit a' b' c' d' (0xDC00 + n)) (hn : n < 1024) :
    CharText ['\\', 'u', a, b, c, d, '\\', 'u', a', b', c', d']
      (Char.ofNat (0x10000 + m * 1024 + n))

/-- What may stand for some characters, up to the closing quote. -/
inductive StringText : List Char → List Char → Prop
  | close : StringText ['"'] []
  | cons {t u s : List Char} {c : Char} (h : CharText t c) (hs : StringText u s) :
      StringText (t ++ u) (c :: s)

def Gaps (u : List Char) : Prop :=
  ∀ c ∈ u, isGap c = true

/-- What may stand for some texts, up to the closing bracket. -/
inductive ItemsText : List Char → List String → Prop
  | last {u t v : List Char} {s : String} (hu : Gaps u) (ht : StringText t s.toList) (hv : Gaps v) :
    ItemsText (u ++ '"' :: (t ++ (v ++ [']']))) [s]
  | more {u t v w : List Char} {s : String} {ss : List String} (hu : Gaps u)
      (ht : StringText t s.toList) (hv : Gaps v)
    (hw : ItemsText w ss) : ItemsText (u ++ '"' :: (t ++ (v ++ ',' :: w))) (s :: ss)

/-- What may stand for a list of texts. -/
inductive ListText : List Char → List String → Prop
  | empty {u : List Char} (hu : Gaps u) : ListText ('[' :: (u ++ [']'])) []
  | items {t : List Char} {ss : List String} (h : ItemsText t ss) : ListText ('[' :: t) ss

/-! ## Reading them

The induction is on how the text is written. -/

theorem hexValue?_of_isHex {c : Char} {n : Nat} (h : IsHex c n) : hexValue? c = some n := by
  have hlower : ∀ i : Fin 16, hexValue? ("0123456789abcdef".toList.get i) = some i.1 := by decide
  have hupper : ∀ i : Fin 16, hexValue? ("0123456789ABCDEF".toList.get i) = some i.1 := by decide
  rcases h with h | h
  · obtain ⟨hn, rfl⟩ := List.getElem?_eq_some_iff.1 h
    exact hlower ⟨n, hn⟩
  · obtain ⟨hn, rfl⟩ := List.getElem?_eq_some_iff.1 h
    exact hupper ⟨n, hn⟩

theorem unit?_of_isUnit {a b c d : Char} {n : Nat} (h : IsUnit a b c d n) :
    unit? a b c d = some n := by
  obtain ⟨_, _, _, _, ha, hb, hc, hd, rfl⟩ := h
  rw [unit?, hexValue?_of_isHex ha, hexValue?_of_isHex hb, hexValue?_of_isHex hc,
    hexValue?_of_isHex hd]
  rfl

theorem readString?_charText {c : Char} (h : CharText t c) :
    readString? (t ++ cs) = consRead c (readString? cs) := by
  cases h with
  | plain hquote hslash hsize => exact readString?_plain hquote hslash hsize
  | short h =>
    have hall : ∀ x ∈ shortEscapes, x.1 ≠ 'u' ∧ shortEscape? x.1 = some x.2 := by decide
    exact readString?_short (hall _ h).1 (hall _ h).2
  | unit h hn => exact readString?_lone (unit?_of_isUnit h) hn cs
  | pair h hm h' hn => exact readString?_pair (unit?_of_isUnit h) hm (unit?_of_isUnit h') hn cs

theorem readString?_stringText {s : List Char} (h : StringText t s) :
    readString? (t ++ rest) = some (s, rest) := by
  induction h with
  | close => rfl
  | cons h hs ih => rw [append_assoc, readString?_charText h, ih, consRead, Option.map_some]

theorem skipGap_gaps {u : List Char} (hu : Gaps u) (cs : List Char) :
    skipGap (u ++ cs) = skipGap cs :=
  dropWhile_append_of_pos hu

theorem readValue?_stringText {s : String} (h : StringText t s.toList) (depth : Nat) :
    readValue? (depth + 1) ('"' :: (t ++ rest)) = some (.str s, rest) := by
  refine readValue?_of_readScalar? ?_ depth
  rw [readScalar?, readString?_stringText h]
  exact congrArg (fun s => some (Json.str s, rest)) (String.ofList_toList)

section Items

variable {u v : List Char} {s : String} (hu : Gaps u) (ht : StringText t s.toList) (hv : Gaps v)
  {depth : Nat}

include hu ht hv

theorem readItems?_close :
    readItems? (depth + 2) (u ++ '"' :: (t ++ (v ++ ']' :: rest))) = some ([.str s], rest) := by
  rw [readItems?, skipGap_gaps hu, skipGap_cons (by decide), readValue?_stringText ht,
    Option.bind_eq_bind, Option.bind_some]
  dsimp only
  rw [skipGap_gaps hv, skipGap_cons (by decide)]
  rfl

theorem readItems?_comma {more : List Char} {items : List Json}
    (hmore : readItems? (depth + 1) more = some (items, rest)) :
    readItems? (depth + 2) (u ++ '"' :: (t ++ (v ++ ',' :: more))) = some
      (.str s :: items, rest) := by
  rw [readItems?, skipGap_gaps hu, skipGap_cons (by decide), readValue?_stringText ht,
    Option.bind_eq_bind, Option.bind_some]
  dsimp only
  rw [skipGap_gaps hv, skipGap_cons (by decide)]
  change (readItems? (depth + 1) more).bind _ = _
  rw [hmore]
  rfl

end Items

/-- **A list is read off whatever spells it.** Each item takes one step, and has two signs at least.
-/
theorem readItems?_text {ss : List String} (h : ItemsText t ss) {depth : Nat}
    (hdepth : t.length ≤ depth) : readItems? depth (t ++ rest) = some (ss.map .str, rest) := by
  induction h generalizing depth with
  | last hu ht hv =>
    simp only [length_append, length_cons, length_nil] at hdepth
    obtain ⟨depth, rfl⟩ := Nat.exists_eq_add_of_le' (show 2 ≤ depth by omega)
    simpa using readItems?_close hu ht hv
  | more hu ht hv hw ih =>
    simp only [length_append, length_cons] at hdepth
    obtain ⟨depth, rfl⟩ := Nat.exists_eq_add_of_le' (show 2 ≤ depth by omega)
    simpa using readItems?_comma hu ht hv (ih (by omega))

theorem readValue?_listText {ss : List String} (h : ListText t ss) {depth : Nat}
    (hdepth : t.length ≤ depth) :
    readValue? (depth + 1) (t ++ rest) = some (.arr (ss.map .str), rest) := by
  cases h with
  | empty hu =>
    rw [cons_append, append_assoc, readValue?, skipGap_gaps hu]
    rfl
  | items h => exact readValue?_arr (readItems?_text h (by simp at hdepth; omega))

theorem ListText.exists_cons {ss : List String} (h : ListText t ss) : ∃ more, t = '[' :: more := by
  cases h with
  | empty => exact ⟨_, rfl⟩
  | items => exact ⟨_, rfl⟩

theorem ItemsText.exists_concat {ss : List String} (h : ItemsText t ss) :
    ∃ front, t = front ++ [']'] := by
  induction h with
  | @last u t v => exact ⟨u ++ '"' :: (t ++ v), by simp⟩
  | @more u t v w s ss hu ht hv hw ih =>
    obtain ⟨front, rfl⟩ := ih
    exact ⟨u ++ '"' :: (t ++ (v ++ ',' :: front)), by simp⟩

theorem ListText.exists_concat {ss : List String} (h : ListText t ss) :
    ∃ front, t = front ++ [']'] := by
  cases h with
  | @empty u => exact ⟨'[' :: u, rfl⟩
  | items h =>
    obtain ⟨front, rfl⟩ := h.exists_concat
    exact ⟨'[' :: front, rfl⟩

theorem parse?_listText {ss : List String} (h : ListText t ss) :
    parse? (String.ofList t) = some (.arr (ss.map .str)) := by
  obtain ⟨more, hmore⟩ := h.exists_cons
  have hgap : skipGap t = t := by
    rw [hmore, skipGap_cons (by decide)]
  have hread : readValue? (2 * t.length + 2) (t ++ []) = some (.arr (ss.map .str), []) :=
    readValue?_listText h (by omega)
  rw [append_nil] at hread
  rw [parse?, String.toList_ofList, hgap, hread]
  rfl

end CodeAtlas.Json

namespace CodeAtlas

/-! ## Shown values

A value that is something is shown as a text that is not empty. -/

theorem Decimal.writeCandidate_ne_empty (c : Decimal.Candidate) :
    Decimal.writeCandidate c ≠ "" := by
  unfold Decimal.writeCandidate
  intro hempty
  rw [← String.toList_inj] at hempty
  dsimp only at hempty
  split at hempty
  · split at hempty <;> simp at hempty
  · split at hempty
    · next hnil => exact Nat.toDigits_ne_nil hnil
    · simp at hempty
    · simp at hempty

theorem Decimal.shortest_ne_empty (x : Float) : Decimal.shortest x ≠ "" := by
  unfold Decimal.shortest
  split
  · decide
  · split <;> decide
  · intro hempty
    rw [← String.toList_inj, String.toList_append, String.toList_empty] at hempty
    have htext := (List.append_eq_nil_iff.1 hempty).2
    split at htext
    · cases htext
    · exact Decimal.writeCandidate_ne_empty _ (String.toList_inj.1 htext)

theorem toString_int_ne_empty (n : Int) : toString n ≠ "" := by
  show Int.repr n ≠ ""
  rw [Int.repr_eq_if]
  split <;> simp [← String.toList_inj]

theorem Json.shown_ne_empty {v : Json} (h : v.isSomething) : v.shown ≠ "" := by
  cases v with
  | null => cases h
  | bool b =>
    obtain rfl : b := h
    decide
  | int n => exact toString_int_ne_empty n
  | float x => exact Decimal.shortest_ne_empty x
  | str s => simpa [isSomething, shown] using h
  | arr items => simp [shown, spelled, ← String.toList_inj]
  | obj fields => simp [shown, spelled, ← String.toList_inj]

end CodeAtlas

namespace CodeAtlas.Summary

open Json List

def fence : List Char :=
  ['\x60', '\x60', '\x60']

theorem afterFence?_eq_none {cs : List Char} (h : ¬fence <+: cs) : afterFence? cs = none := by
  unfold afterFence?
  split
  · next rest => exact absurd ⟨rest, rfl⟩ h
  · rfl

theorem withoutFences_nil : withoutFences [] = [] := by
  rw [withoutFences]
  rfl

theorem withoutFences_cons {c : Char} {cs : List Char} (h : ¬fence <+: c :: cs) :
    withoutFences (c :: cs) = c :: withoutFences cs := by
  rw [withoutFences]
  split
  · next rest hrest =>
    rw [afterFence?_eq_none h] at hrest
    cases hrest
  · rfl

theorem withoutFences_append {x y : List Char} (hx : ¬fence <:+: x)
    (hlast : ∀ c ∈ x.getLast?, c ≠ '\x60') : withoutFences (x ++ y) = x ++ withoutFences y := by
  induction x with
  | nil => rfl
  | cons c x ih =>
    have hhead : ¬fence <+: c :: x ++ y := by
      intro hfence
      rcases Nat.le_total fence.length (c :: x).length with hlength | hlength
      · exact hx (prefix_of_prefix_length_le hfence (prefix_append _ y) hlength).isInfix
      · -- all of the text is in the fence, so it ends in a piece of one
        have hpiece : c :: x <+: fence :=
          prefix_of_prefix_length_le (prefix_append _ y) hfence hlength
        have hmem : (c :: x).getLast (cons_ne_nil c x) ∈ fence := hpiece.subset (getLast_mem _)
        have heq : (c :: x).getLast (cons_ne_nil c x) = '\x60' := by simpa [fence] using hmem
        exact hlast _ (getLast?_eq_some_getLast _) heq
    have hrest : ∀ d ∈ x.getLast?, d ≠ '\x60' := by
      intro d hd
      refine hlast d ?_
      rw [getLast?_cons, Option.mem_def.1 hd]
      rfl
    rw [cons_append] at hhead ⊢
    rw [withoutFences_cons hhead, ih (fun hwithin => hx (hwithin.trans (suffix_cons c x).isInfix))
      hrest]
    rfl

theorem withoutFences_append_of_not_mem {x y : List Char} (hx : '\x60' ∉ x) :
    withoutFences (x ++ y) = x ++ withoutFences y := by
  refine withoutFences_append (fun hwithin => hx (hwithin.subset mem_cons_self)) ?_
  rintro c hc rfl
  exact hx (mem_of_getLast? hc)

/-- What is left of a text when a line end at its start is taken off. -/
def pastLineEnd (cs : List Char) : List Char :=
  if cs.head? = some '\n' then cs.tail else cs

theorem withoutFences_fence {tag cs : List Char} (htag : ∀ c ∈ tag, 'a' ≤ c ∧ c ≤ 'z')
    (hcs : ∀ c ∈ cs.head?, ¬('a' ≤ c ∧ c ≤ 'z')) :
    withoutFences (fence ++ (tag ++ cs)) = withoutFences (pastLineEnd cs) := by
  have hdrop : (tag ++ cs).dropWhile (fun c => 'a' ≤ c && c ≤ 'z') = cs := by
    rw [dropWhile_append_of_pos (by simpa using htag), Text.dropWhile_of_head? (by simpa using hcs)]
  have hafter : afterFence? (fence ++ (tag ++ cs)) = some (pastLineEnd cs) := by
    simp only [fence, cons_append, nil_append, afterFence?, hdrop]
    split
    · rfl
    · next hne =>
      have hhead : cs.head? ≠ some '\n' := fun h => hne _ (eq_cons_of_mem_head? h)
      rw [pastLineEnd, if_neg hhead]
  rw [withoutFences]
  split
  · next rest hrest => rw [Option.some.inj (hrest.symm.trans hafter)]
  · next hnone => rw [hafter] at hnone; cases hnone

/-- The characters spell a list of texts, perhaps between gaps. -/
def Spells (j : List Char) (ss : List String) : Prop :=
  ∃ u t v, Gaps u ∧ ListText t ss ∧ Gaps v ∧ j = u ++ (t ++ v)

/-- The characters stand between fences, of which the first may name a language in small letters. -/
def Fenced (j reply : List Char) : Prop :=
  ∃ tag before after trailing, (∀ c ∈ tag, 'a' ≤ c ∧ c ≤ 'z') ∧ (∀ c ∈ before, c = '\n') ∧
    (∀ c ∈ after, c = '\n') ∧
    (∀ c ∈ trailing, c = '\n') ∧
      reply = fence ++ (tag ++ (before ++ (j ++ (after ++ (fence ++ trailing)))))

/-- Such characters, with no fence in the list. -/
def Bare (j : List Char) (ss : List String) : Prop :=
  ∃ u t v, Gaps u ∧ ListText t ss ∧ ¬fence <:+: t ∧ Gaps v ∧ j = u ++ (t ++ v)

variable {j reply : List Char} {ss : List String}

theorem Spells.bare (h : Spells j ss) (hj : ¬fence <:+: j) : Bare j ss := by
  obtain ⟨u, t, v, hu, ht, hv, rfl⟩ := h
  exact ⟨u, t, v, hu, ht, fun hwithin => hj (hwithin.trans ⟨u, v, by simp⟩), hv, rfl⟩

theorem gaps_of_newlines {u : List Char} (h : ∀ c ∈ u, c = '\n') : Gaps u := by
  intro c hc
  rw [h c hc]
  rfl

theorem gaps_append {u v : List Char} (hu : Gaps u) (hv : Gaps v) : Gaps (u ++ v) :=
  fun c hc => (mem_append.1 hc).elim (hu c) (hv c)

theorem not_mem_of_gaps {u : List Char} (h : Gaps u) : '\x60' ∉ u :=
  fun hmem => absurd (h _ hmem) (by decide)

theorem pastLineEnd_gaps {u : List Char} (hu : Gaps u) : Gaps (pastLineEnd u) := by
  unfold pastLineEnd
  split
  · exact fun c hc => hu c (mem_of_mem_tail hc)
  · exact hu

namespace Bare

theorem gaps_append {u v : List Char} (hu : Gaps u) (h : Bare j ss) (hv : Gaps v) :
    Bare (u ++ (j ++ v)) ss := by
  obtain ⟨u', t, v', hu', ht, hfence, hv', rfl⟩ := h
  exact ⟨u ++ u', t, v' ++ v, Summary.gaps_append hu hu', ht, hfence,
    Summary.gaps_append hv' hv, by simp⟩

theorem withoutFences_append (h : Bare j ss) (rest : List Char) :
    withoutFences (j ++ rest) = j ++ withoutFences rest := by
  obtain ⟨u, t, v, hu, ht, hfence, hv, rfl⟩ := h
  have hlast : ∀ c ∈ t.getLast?, c ≠ '\x60' := by
    obtain ⟨front, rfl⟩ := ht.exists_concat
    simp
  rw [append_assoc, append_assoc, withoutFences_append_of_not_mem (not_mem_of_gaps hu),
    Summary.withoutFences_append hfence hlast, withoutFences_append_of_not_mem (not_mem_of_gaps hv),
      append_assoc,
    append_assoc]

/-- A list, or the gap in front of it, does not go on with the name of a language. -/
theorem head_not_small (h : Bare j ss) (rest : List Char) :
    ∀ c ∈ (j ++ rest).head?, ¬('a' ≤ c ∧ c ≤ 'z') := by
  obtain ⟨u, t, v, hu, ht, -, -, rfl⟩ := h
  obtain ⟨more, rfl⟩ := ht.exists_cons
  have hgap : ∀ c, isGap c → ¬('a' ≤ c ∧ c ≤ 'z') := by
    intro c hc
    simp only [isGap, Bool.or_eq_true, beq_iff_eq] at hc
    rcases hc with ((rfl | rfl) | rfl) | rfl <;> decide
  cases u with
  | nil => simp
  | cons c u => simpa using hgap c (hu c mem_cons_self)

theorem pastLineEnd_append (h : Bare j ss) (rest : List Char) :
    ∃ j', Bare j' ss ∧ pastLineEnd (j ++ rest) = j' ++ rest := by
  unfold pastLineEnd
  split
  · next hhead =>
    obtain ⟨u, t, v, hu, ht, hfence, hv, rfl⟩ := h
    cases u with
    | nil =>
      obtain ⟨more, rfl⟩ := ht.exists_cons
      cases hhead
    | cons c u => exact ⟨u ++ (t ++ v), ⟨u, t, v, fun d hd => hu d (mem_cons_of_mem c hd), ht,
        hfence, hv, rfl⟩, rfl⟩
  · exact ⟨j, h, rfl⟩

/-- **Fences are taken off.** What is left spells the same list. -/
theorem withoutFences_fenced (h : Bare j ss) (hreply : Fenced j reply) :
    Bare (withoutFences reply) ss := by
  obtain ⟨tag, before, after, trailing, htag, hbefore, hafter, htrailing, rfl⟩ := hreply
  have hinner : Bare (before ++ (j ++ after)) ss :=
    h.gaps_append (gaps_of_newlines hbefore) (gaps_of_newlines hafter)
  have hclosing : Gaps (withoutFences (fence ++ trailing)) := by
    have hgaps := pastLineEnd_gaps (gaps_of_newlines htrailing)
    have hhead : ∀ c ∈ trailing.head?, ¬('a' ≤ c ∧ c ≤ 'z') := by
      intro c hc
      rw [htrailing c (mem_of_mem_head? hc)]
      decide
    have hopen : withoutFences (fence ++ ([] ++ trailing)) = withoutFences (pastLineEnd trailing) :=
      withoutFences_fence (fun _ h => absurd h not_mem_nil) hhead
    have hrest := withoutFences_append_of_not_mem (y := []) (not_mem_of_gaps hgaps)
    rw [withoutFences_nil, append_nil] at hrest
    rw [nil_append] at hopen
    rwa [hopen, hrest]
  obtain ⟨j', hj', hcut⟩ := hinner.pastLineEnd_append (fence ++ trailing)
  have hsame : before ++ (j ++ (after ++ (fence ++ trailing))) = before ++ (j ++ after) ++
    (fence ++ trailing) := by simp
  rw [hsame, withoutFences_fence htag (hinner.head_not_small _), hcut, hj'.withoutFences_append]
  exact hj'.gaps_append (fun _ h => absurd h not_mem_nil) hclosing

theorem replyList?_trim (h : Bare j ss) :
    replyList? (Text.trim (String.ofList j)).toList ss.length = some (ss.map .str) := by
  obtain ⟨u, t, v, hu, ht, -, hv, rfl⟩ := h
  have hblank : ∀ c, isGap c → Text.isBlank c := by
    intro c hc
    simp only [isGap, Bool.or_eq_true, beq_iff_eq] at hc
    rcases hc with ((rfl | rfl) | rfl) | rfl <;> decide
  have htrim : (Text.trim (String.ofList (u ++ (t ++ v)))).toList = t := by
    obtain ⟨more, hmore⟩ := ht.exists_cons
    obtain ⟨front, hfront⟩ := ht.exists_concat
    rw [Text.trim, Text.trimBy, String.toList_ofList, String.toList_ofList,
      Text.trimList_append_left fun c hc => hblank c (hu c hc),
      Text.trimList_of_ends (by simp [hmore]) (by simp [hmore]; decide) (by simp [hfront]; decide)
        fun c hc => hblank c (hv c hc)]
  rw [htrim, replyList?, listOf?, parse?_listText ht]
  dsimp only
  rw [Option.filter_some, if_pos (by simp)]

end Bare

theorem summaryOf_str (s : String) : summaryOf (.str s) = if s = "" then none else some s := by
  rw [summaryOf, isSomething, shown]
  by_cases hs : s = "" <;> simp [hs]

/-- The texts of a list are the summaries, but for empty ones. -/
theorem summariesOf_spelled (h : Spells j ss) (hj : ¬fence <:+: j) {reply : String}
    (hreply : reply.toList = j ∨ Fenced j reply.toList) :
    summariesOf reply ss.length = ss.map fun s => if s = "" then none else some s := by
  have hbare : Bare (withoutFences reply.toList) ss := by
    rcases hreply with hreply | hreply
    · have hsame := (h.bare hj).withoutFences_append []
      rw [append_nil, withoutFences_nil, append_nil] at hsame
      rw [hreply, hsame]
      exact h.bare hj
    · exact (h.bare hj).withoutFences_fenced hreply
  have hall :
      ((ss.map Json.str).map summaryOf) = ss.map fun s => if s = "" then none else some s := by
    rw [map_map]
    exact map_congr_left fun s _ => summaryOf_str s
  unfold summariesOf
  dsimp only
  rw [hbare.replyList?_trim, Option.getD_some, hall, leading_of_length_le (by simp), length_map,
    Int.sub_self]
  exact append_nil _

theorem length_summariesOf (reply : String) (n : Nat) : (summariesOf reply n).length = n := by
  unfold summariesOf
  dsimp only
  rw [length_append, length_replicate, leading, if_pos (Int.natCast_nonneg n), length_take]
  omega

theorem ne_empty_of_mem_summariesOf {reply s : String} {n : Nat}
    (h : some s ∈ summariesOf reply n) : s ≠ "" := by
  rcases mem_append.1 h with h | h
  · obtain ⟨v, -, hv⟩ := mem_map.1 (mem_of_mem_leading h)
    unfold summaryOf at hv
    split at hv
    · next hsome => exact Option.some.inj hv ▸ shown_ne_empty hsome
    · cases hv
  · cases eq_of_mem_replicate h

/-- **Replies are read faithfully.** Whatever a reply is, it gives as many summaries as are
expected, some of them missing perhaps and none of them empty. And a reply that spells that many
texts, in any way the standard allows and without a fence inside, gives these texts in their order,
bare or between fences; the empty ones are missing. -/
theorem summariesOf_faithful (n : Nat) :
    (∀ reply, (summariesOf reply n).length = n ∧ ∀ s, some s ∈ summariesOf reply n → s ≠ "") ∧
    ∀ (ss : List String) (j : List Char), ss.length = n → Spells j ss → ¬fence <:+: j →
      ∀ reply : String, reply.toList = j ∨ Fenced j reply.toList →
        summariesOf reply n = ss.map fun s => if s = "" then none else some s := by
  refine ⟨fun reply => ⟨length_summariesOf reply n, fun s => ne_empty_of_mem_summariesOf⟩, ?_⟩
  rintro ss j rfl hspells hj reply hreply
  exact summariesOf_spelled hspells hj hreply

def accentText : List Char :=
  ['[', '"', '\\', 'u', '0', '0', 'E', '9', '\x60', '"', ',', ' ', '"', '"', ']']

theorem spells_accentText : Spells accentText ["é`", ""] := by
  have hnone : Gaps [] := fun _ h => absurd h not_mem_nil
  have haccent : IsUnit '0' '0' 'E' '9' 0xE9 :=
    ⟨0, 0, 14, 9, .inl rfl, .inl rfl, .inr rfl, .inl rfl, rfl⟩
  have hfirst : StringText ['\\', 'u', '0', '0', 'E', '9', '\x60', '"'] "é`".toList :=
    .cons (.unit haccent (by decide)) (.cons (.plain (by decide) (by decide) (by decide)) .close)
  have hsecond : StringText ['"'] "".toList := .close
  have hblank : Gaps [' '] := by simp [Gaps, isGap]
  exact ⟨[], accentText, [], hnone, .items (.more hnone hfirst hnone (.last hblank hsecond hnone)),
    hnone, rfl⟩

/-- Between fences they are read as they are, and the empty one is missing. -/
theorem summariesOf_faithful_accent :
    summariesOf "```json\n[\"\\u00E9`\", \"\"]\n```" 2 = [some "é`", none] := by
  refine (summariesOf_faithful 2).2 ["é`", ""] accentText rfl spells_accentText (by decide)
    _ (.inr ?_)
  exact ⟨['j', 's', 'o', 'n'], ['\n'], ['\n'], [], by simp, by simp, by simp, by simp, by decide⟩

end CodeAtlas.Summary
