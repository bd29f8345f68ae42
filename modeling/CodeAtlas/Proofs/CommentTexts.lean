import CodeAtlas.Proofs.Cutting
import CodeAtlas.Proofs.Grounded

/-!
# The texts of comments

A comment is named by what is left of it when its markers are taken off. They are taken off its
front, one set of characters after the other, and blanks are taken off both ends each time. Nothing
takes off a marker at the end.
-/

namespace CodeAtlas.Extract

open List
open Source (Tree)
open Text (cut dropLeading isBlank trim trimList)

/-! ## Taking markers off

Each set of markers gets a round. On a text that is edged by other characters it does nothing. -/

/-- A text without blanks at its ends. A round of `strip` leaves it alone unless it starts with a
marker. -/
structure Edged (cs : List Char) : Prop where
  ne_nil : cs ≠ []
  head : ∀ c ∈ cs.head?, isBlank c = false
  last : ∀ c ∈ cs.getLast?, isBlank c = false

/-- One round: leading markers of one set are taken off, and then the blanks at both ends. -/
def strip (cs marks : List Char) : List Char :=
  trimList isBlank (dropLeading marks.contains cs)

section Strip

variable {cs run marks : List Char} {m : Char}

theorem Edged.trimList (h : Edged cs) : trimList isBlank cs = cs := by
  simpa using Text.trimList_of_ends h.ne_nil h.head h.last (forall_mem_nil _)

theorem Edged.append_left (h : Edged cs) (hm : isBlank m = false) (more : List Char) :
    Edged (m :: more ++ cs) := by
  refine ⟨cons_ne_nil m _, fun c hc => ?_, ?_⟩
  · rwa [← Option.some.inj hc]
  · rw [getLast?_append_of_ne_nil _ h.ne_nil]
    exact h.last

theorem Edged.strip_eq_self (h : Edged cs) (hhead : ∀ c ∈ cs.head?, marks.contains c = false) :
    strip cs marks = cs := by
  rw [strip, dropLeading, Text.dropWhile_of_head? hhead, h.trimList]

theorem strip_append (hrun : ∀ c ∈ run, marks.contains c) :
    strip (run ++ cs) marks = strip cs marks := by
  rw [strip, dropLeading, dropWhile_append_of_pos hrun]
  rfl

theorem Edged.strip_blank (h : Edged cs) (hmarks : marks.contains ' ' = false) :
    strip (' ' :: cs) marks = cs := by
  rw [strip, dropLeading, dropWhile_cons_of_neg (by rw [hmarks]; decide), ← singleton_append,
    Text.trimList_append_left (forall_mem_singleton.2 (by decide)), h.trimList]

theorem Edged.foldl_strip_eq_self (h : Edged cs) {sets : List (List Char)}
    (hsets : ∀ marks ∈ sets, ∀ c ∈ cs.head?, marks.contains c = false) :
    sets.foldl strip cs = cs := by
  induction sets with
  | nil => rfl
  | cons marks sets ih =>
    rw [foldl_cons, h.strip_eq_self (hsets marks mem_cons_self)]
    exact ih fun marks' hmarks' => hsets marks' (mem_cons_of_mem marks hmarks')

/-- Rounds that do not apply, the round that takes the opening marker off, and rounds that find
nothing more. -/
theorem foldl_strip_marked (front : List (List Char)) (m : Char) (more marks : List Char)
    (later : List (List Char))
    (hbody : Edged cs) (hm : isBlank m = false) (hfront : ∀ others ∈ front, others.contains m =
      false) (hrun : ∀ c ∈ m :: more, marks.contains c) (hblank : marks.contains ' ' = false)
    (hlater : ∀ others ∈ later, ∀ c ∈ cs.head?, others.contains c = false) :
    (front ++ marks :: later).foldl strip (m :: more ++ ' ' :: cs) = cs := by
  have hwhole : Edged (m :: more ++ ' ' :: cs) := by
    rw [append_cons]
    exact hbody.append_left hm (more ++ [' '])
  have hskipped : front.foldl strip (m :: more ++ ' ' :: cs) = m :: more ++ ' ' :: cs := by
    refine hwhole.foldl_strip_eq_self fun others hothers c hc => ?_
    rw [← Option.some.inj hc]
    exact hfront others hothers
  rw [foldl_append, hskipped, foldl_cons, strip_append hrun, hbody.strip_blank hblank,
    hbody.foldl_strip_eq_self hlater]

theorem toList_commentText (raw : String) :
    (commentText raw).toList = commentMarkers.foldl strip (trimList isBlank raw.toList) := by
  have htrim (text : String) : (trim text).toList = trimList isBlank text.toList := by
    rw [trim, Text.trimBy, String.toList_ofList]
  have hround (text : String) (marks : List Char) :
      strip text.toList marks = (trim (Text.trimLeftOf marks text)).toList := by
    rw [htrim, Text.trimLeftOf, String.toList_ofList, strip]
  rw [commentText, ← htrim]
  exact (foldl_hom String.toList hround).symm

end Strip

/-! ## Ways to write a comment

One style for each set of markers. -/

/-- A text that is written as a comment: three to five hundred characters on one line, without
blanks at its ends and without the characters that markers are made of. -/
structure Remark (t : String) : Prop where
  long : 3 ≤ t.length
  short : t.length ≤ 500
  one_line : '\n' ∉ t.toList
  head : ∀ c ∈ t.toList.head?, isBlank c = false
  last : ∀ c ∈ t.toList.getLast?, isBlank c = false
  unmarked : ∀ c ∈ t.toList, c ≠ '/' ∧ c ≠ '*' ∧ c ≠ '#'

/-- The ways to write a comment. -/
inductive CommentStyle where
  | slashes
  | tripleSlashes
  | hash
  | block
deriving DecidableEq

namespace CommentStyle

def write (style : CommentStyle) (t : String) : String :=
  match style with
  | .slashes => "// " ++ t
  | .tripleSlashes => "/// " ++ t
  | .hash => "# " ++ t
  | .block => "/* " ++ t ++ " */"

/-- What is left of the comment: the marker that closes a block stays. -/
def kept (style : CommentStyle) (t : String) : String :=
  match style with
  | .block => t ++ " */"
  | _ => t

end CommentStyle

namespace Remark

variable {t : String}

theorem toList_ne_nil (ht : Remark t) : t.toList ≠ [] := by
  intro hnil
  have hlong := ht.long
  rw [← String.length_toList, hnil] at hlong
  exact absurd hlong (by decide)

theorem edged (ht : Remark t) : Edged t.toList :=
  ⟨ht.toList_ne_nil, ht.head, ht.last⟩

theorem contains_head (ht : Remark t) (rest : List Char) :
    ∀ marks ∈ commentMarkers, ∀ c ∈ (t.toList ++ rest).head?, marks.contains c = false := by
  intro marks hmarks c hc
  rw [head?_append_of_ne_nil _ ht.toList_ne_nil] at hc
  obtain ⟨hslash, hstar, hhash⟩ := ht.unmarked c (mem_of_mem_head? hc)
  simp only [commentMarkers, mem_cons, not_mem_nil, or_false] at hmarks
  rcases hmarks with rfl | rfl | rfl | rfl | rfl | rfl <;> simp [hslash, hstar, hhash]

end Remark

theorem Remark.toList_commentText {t raw : String} (ht : Remark t) (front : List (List Char))
    (m : Char) (more marks : List Char) (later : List (List Char))
    (hraw : raw.toList = m :: more ++ ' ' :: t.toList)
    (hmarkers : commentMarkers = front ++ marks :: later) (hm : isBlank m = false)
    (hfront : ∀ others ∈ front, others.contains m = false)
    (hrun : ∀ c ∈ m :: more, marks.contains c)
    (hblank : marks.contains ' ' = false) : (commentText raw).toList = t.toList := by
  have hlater : ∀ others ∈ later, ∀ c ∈ t.toList.head?, others.contains c = false := by
    intro others hothers
    have hrest := ht.contains_head [] others (by simp [hmarkers, hothers])
    rwa [append_nil] at hrest
  have hedged : Edged raw.toList := by
    rw [hraw, append_cons]
    exact ht.edged.append_left hm (more ++ [' '])
  rw [Extract.toList_commentText, hedged.trimList, hraw, hmarkers]
  exact foldl_strip_marked front m more marks later ht.edged hm hfront hrun hblank hlater

/-- What is left of a comment in each of the ways to write it. -/
theorem commentText_write {t : String} (ht : Remark t) (style : CommentStyle) :
    commentText (style.write t) = style.kept t := by
  rw [← String.toList_inj]
  cases style with
  | slashes =>
    exact ht.toList_commentText [] '/' ['/'] ['/'] _ (String.toList_append ..) rfl (by decide)
      (by simp) (by simp) (by decide)
  | tripleSlashes =>
    exact ht.toList_commentText [] '/' ['/', '/'] ['/'] _ (String.toList_append ..) rfl (by decide)
      (by simp) (by simp) (by decide)
  | hash =>
    exact ht.toList_commentText [['/'], ['/']] '#' [] ['#'] _ (String.toList_append ..) rfl
      (by decide) (by simp) (by simp) (by decide)
  | block =>
    -- the closing marker counts as text from here on
    have hbody : Edged (t.toList ++ " */".toList) := by
      refine ⟨append_ne_nil_of_left_ne_nil ht.toList_ne_nil _, ?_, fun c hc => ?_⟩
      · rw [head?_append_of_ne_nil _ ht.toList_ne_nil]
        exact ht.head
      · rw [getLast?_append_of_ne_nil _ (by decide)] at hc
        rw [← Option.some.inj hc]
        decide
    have hstar : Edged ('*' :: [' '] ++ (t.toList ++ " */".toList)) :=
      hbody.append_left (by decide) [' ']
    have hwhole : Edged (['/'] ++ ('*' :: [' '] ++ (t.toList ++ " */".toList))) :=
      hstar.append_left (by decide) []
    -- the first round takes off the slash alone, and the star goes when its turn comes
    have hslash : strip (['/'] ++ ('*' :: [' '] ++ (t.toList ++ " */".toList))) ['/'] =
        '*' :: [' '] ++ (t.toList ++ " */".toList) := by
      rw [strip_append (by simp), hstar.strip_eq_self fun c hc => ?_]
      rw [← Option.some.inj hc]
      decide
    have hraw : (CommentStyle.block.write t).toList = ['/'] ++
        ('*' :: [' '] ++ (t.toList ++ " */".toList)) := by
      rw [CommentStyle.write, String.toList_append, String.toList_append, append_assoc]
      rfl
    rw [toList_commentText, hraw, hwhole.trimList, commentMarkers, foldl_cons, hslash,
      CommentStyle.kept, String.toList_append]
    exact foldl_strip_marked [['/'], ['#']] '*' [] ['/', '*'] _ hbody (by decide) (by simp)
      (by simp) (by decide)
      fun marks hmarks => ht.contains_head _ marks (mem_of_mem_drop (i := 4) hmarks)

variable {s : Site} {symbols : List Node} {c : Tree}

theorem exists_commentNode {raw : String} (hraw : s.parsed.text c = .ok raw)
    (hlong : shortestComment ≤ (commentText raw).length) :
    ∃ n, commentNode s symbols c = .ok (some n) ∧ n.kind = .comment ∧ n.loc = s.locate c ∧
      n.name = cut longestComment (commentText raw) := by
  simp only [commentNode, bind_eq_ok_iff, hraw, Except.ok.injEq, exists_eq_left',
    if_neg (Nat.not_lt.2 hlong)]
  exact ⟨_, rfl, rfl, rfl, rfl⟩

theorem mem_comments {n : Node} {kinds : List String} (hn : commentNode s symbols c = .ok (some n))
    (hc : s.Holds c) (hkind : c.kind ∈ kinds) (hall : ∀ c' ∈ commentTrees kinds s.parsed.root,
      Returns (s.parsed.text c')) :
    ∃ found, comments s kinds symbols = .ok found ∧ n ∈ found := by
  obtain ⟨found, hfound⟩ := Returns.collect fun c' hc' => .commentNode (hall c' hc')
  exact ⟨found, hfound, mem_of_collect hfound (mem_commentTrees.2 ⟨hc, hkind⟩) hn⟩

theorem Remark.shortest_le_kept {t : String} (ht : Remark t) (style : CommentStyle) :
    shortestComment ≤ (style.kept t).length := by
  have hlong := ht.long
  cases style with
  | block =>
    rw [CommentStyle.kept, String.length_append]
    exact Nat.le_add_right_of_le hlong
  | _ => exact hlong

/-- A closing marker is only cut off where the remark fills the name. -/
theorem Remark.cut_kept_eq_iff {t : String} (ht : Remark t) (style : CommentStyle) :
    cut longestComment (style.kept t) = t ↔ style ≠ .block ∨ t.length = longestComment := by
  have hshort : t.toList.length ≤ longestComment := by
    rw [String.length_toList]
    exact ht.short
  rw [← String.toList_inj, cut, String.toList_ofList, ← String.length_toList]
  by_cases hstyle : style = .block
  · rw [hstyle, CommentStyle.kept, String.toList_append]
    constructor
    · intro hcut
      have hlength := congrArg List.length hcut
      rw [length_take, length_append, show " */".toList.length = 3 from rfl] at hlength
      exact .inr (by omega)
    · rintro (hne | hlength)
      · exact absurd rfl hne
      · exact take_left' hlength
  · have hkept : style.kept t = t := by
      cases style with
      | block => exact absurd rfl hstyle
      | _ => rfl
    rw [hkept, take_of_length_le hshort]
    exact iff_of_true rfl (.inl hstyle)

/-- **Which comments are named by their text.** A remark of any style has a node, which is among the
comments of its file if all of them can be read. It is named by the remark exactly if no marker
closes the comment, or if the remark fills the name so that the marker is cut away. Other blocks
keep the marker that closes them. -/
theorem comment_name_eq_iff (s : Site) (symbols : List Node) (c : Tree) (style : CommentStyle)
    (t : String) (ht : Remark t) (hsource : s.parsed.text c = .ok (style.write t)) :
    ∃ n, commentNode s symbols c = .ok (some n) ∧ n.kind = .comment ∧ n.loc = s.locate c ∧
      n.name = cut longestComment (style.kept t) ∧
      (n.name = t ↔ style ≠ .block ∨ t.length = longestComment) ∧
      ∀ kinds : List String, s.Holds c → c.kind ∈ kinds →
        (∀ c' ∈ commentTrees kinds s.parsed.root, Returns (s.parsed.text c')) →
        ∃ found, comments s kinds symbols = .ok found ∧ n ∈ found := by
  have htext := commentText_write ht style
  have hlong : shortestComment ≤ (commentText (style.write t)).length :=
    htext ▸ ht.shortest_le_kept style
  obtain ⟨n, hn, hkind, hloc, hname⟩ := exists_commentNode hsource hlong
  rw [htext] at hname
  refine ⟨n, hn, hkind, hloc, hname, ?_, fun kinds hc hck hall => mem_comments hn hc hck hall⟩
  rw [hname]
  exact ht.cut_kept_eq_iff style

def lineRemark : Tree :=
  .node "comment" 0 7 []

def blockRemark : Tree :=
  .node "comment" 8 18 []

def remarkSite : Site :=
  ⟨"a.js", "javascript", ⟨Text.Utf8.encode "// note\n/* note */",
    .node "program" 0 18 [lineRemark, blockRemark]⟩⟩

theorem comment_name_eq_iff_remarkSite : Remark "note" ∧
    remarkSite.parsed.text lineRemark = .ok (CommentStyle.slashes.write "note") ∧
    remarkSite.parsed.text blockRemark = .ok (CommentStyle.block.write "note") ∧
    (∃ n, commentNode remarkSite [] lineRemark = .ok (some n) ∧ n.name = "note") ∧
    ∃ n, commentNode remarkSite [] blockRemark = .ok (some n) ∧ n.name = "note */" ∧
      n.name ≠ "note" := by
  have ht : Remark "note" := by
    refine ⟨by decide, by decide, by decide, fun c hc => ?_, fun c hc => ?_, fun c hc => ?_⟩
    · rw [← Option.some.inj hc]
      decide
    · rw [← Option.some.inj hc]
      decide
    · simp only [String.reduceToList, mem_cons, not_mem_nil, or_false] at hc
      rcases hc with rfl | rfl | rfl | rfl <;> decide
  have hline : remarkSite.parsed.text lineRemark = .ok (CommentStyle.slashes.write "note") :=
    eq_ok_of_toOption (by decide +kernel)
  have hblock : remarkSite.parsed.text blockRemark = .ok (CommentStyle.block.write "note") :=
    eq_ok_of_toOption (by decide +kernel)
  obtain ⟨n, hn, -, -, -, hiff, -⟩ :=
    comment_name_eq_iff remarkSite [] lineRemark .slashes "note" ht hline
  obtain ⟨n', hn', -, -, hname', hiff', -⟩ :=
    comment_name_eq_iff remarkSite [] blockRemark .block "note" ht hblock
  refine ⟨ht, hline, hblock, ⟨n, hn, hiff.2 (.inl (by decide))⟩, n', hn', ?_, ?_⟩
  · rw [hname']
    decide +kernel
  · rw [ne_eq, hiff']
    decide

end CodeAtlas.Extract
