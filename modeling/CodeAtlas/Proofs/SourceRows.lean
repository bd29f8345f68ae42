import CodeAtlas.Proofs.Cutting
import CodeAtlas.Proofs.JsonText
import CodeAtlas.Source.Tree
import CodeAtlas.Summary.Snippet

/-!
# Rows of a source text and lines of its file

A tree node is located by rows, which line feeds separate; the text of a symbol is cut out of its
file by lines, which other characters end as well.
-/

namespace CodeAtlas

open List Text

namespace Text

/-! ## Rows and lines

Rows end with line feeds. Lines also end with other characters. -/

theorem length_splitBy (p : Char → Bool) (cs : List Char) :
    (splitBy p cs).length = cs.countP p + 1 := by
  induction cs with
  | nil => rfl
  | cons c cs ih =>
    rw [splitBy]
    split
    · next hc => rw [length_cons, ih, countP_cons_of_pos hc]
    · next hc =>
      cases hcut : splitBy p cs with
      | nil => exact absurd hcut (splitBy_ne_nil p cs)
      | cons piece pieces =>
        rw [countP_cons_of_neg hc, ← ih, hcut]
        rfl

theorem lineList_of_forall_not {l : List Char} (hne : l ≠ []) (hl : ∀ c ∈ l, isLineEnd c = false) :
    lineList l = [l] := by
  induction l with
  | nil => exact absurd rfl hne
  | cons c l ih =>
    have hc := hl c mem_cons_self
    cases l with
    | nil => rw [lineList, if_neg (by simp [hc])]
    | cons d l =>
      rw [lineList, if_neg (by simp [hc]), ih (cons_ne_nil d l) fun e he =>
        hl e (mem_cons_of_mem c he)]

/-- **Rows are lines up to the first one that another character cuts.** Only an empty row after the
last line feed is no line. -/
theorem take_lineList {rows : List (List Char)} (hne : rows ≠ []) {k : Nat}
    (hrows : ∀ l ∈ rows.take k, ∀ c ∈ l, isLineEnd c = false) :
    (lineList (['\n'].intercalate rows)).take k = rows.take k ∨
      rows.length ≤ k ∧ rows = lineList (['\n'].intercalate rows) ++ [[]] ∧
        ∀ c ∈ (['\n'].intercalate rows).getLast?, c = '\n' := by
  induction rows generalizing k with
  | nil => exact absurd rfl hne
  | cons l rows ih =>
    cases k with
    | zero => exact .inl rfl
    | succ k =>
      rw [take_succ_cons, forall_mem_cons] at hrows
      obtain ⟨hl, hrows⟩ := hrows
      cases rows with
      | nil =>
        rw [intercalate_singleton]
        by_cases hnil : l = []
        · subst hnil
          exact .inr ⟨by simp, rfl, by simp⟩
        · rw [lineList_of_forall_not hnil hl]
          exact .inl rfl
      | cons next rows =>
        have htext : ['\n'].intercalate (l :: next :: rows) = l ++ '\n' ::
            ['\n'].intercalate (next :: rows) := by
          simp [intercalate_cons_cons]
        rw [htext, lineList_append_newline hl]
        refine (ih (cons_ne_nil next rows) hrows).imp (congrArg (l :: ·)) ?_
        rintro ⟨hlength, hlines, hlast⟩
        refine ⟨Nat.succ_le_succ hlength, congrArg (l :: ·) hlines, fun c hc => ?_⟩
        rw [getLast?_append, getLast?_cons, Option.some_or, Option.mem_some_iff] at hc
        rw [← hc]
        cases hend : (['\n'].intercalate (next :: rows)).getLast? with
        | none => rfl
        | some d => exact hlast d hend

theorem isLineEnd_of_mem_lineList {cs l : List Char} (hl : l ∈ lineList cs) :
    ∀ c ∈ l, isLineEnd c = false := by
  fun_induction lineList cs generalizing l with
  | case1 => cases hl
  | case2 c hc => simp_all
  | case3 c hc => simp_all
  | case4 c d cs hc hpair ih =>
    rcases mem_cons.1 hl with rfl | hl
    · simp
    · exact ih hl
  | case5 c d cs hc hpair ih =>
    rcases mem_cons.1 hl with rfl | hl
    · simp
    · exact ih hl
  | case6 c d cs hc hcut ih => simp_all
  | case7 c d cs hc line rest hcut ih =>
    rcases mem_cons.1 hl with rfl | hl
    · exact forall_mem_cons.2 ⟨by simpa using hc, ih (by rw [hcut]; exact mem_cons_self)⟩
    · exact ih (by rw [hcut]; exact mem_cons_of_mem _ hl)

theorem toList_join (sep : String) (pieces : List String) :
    (join sep pieces).toList = sep.toList.intercalate (pieces.map String.toList) := by
  induction pieces with
  | nil => rfl
  | cons s pieces ih =>
    cases pieces with
    | nil => simp [join]
    | cons next pieces => simp [join, ih, intercalate_cons_cons]

theorem mem_intercalate_of_mem {sep l : List Char} {pieces : List (List Char)} (hl : l ∈ pieces)
    {c : Char} (hc : c ∈ l) : c ∈ sep.intercalate pieces := by
  induction pieces with
  | nil => cases hl
  | cons first pieces ih =>
    cases pieces with
    | nil => rwa [intercalate_singleton, ← mem_singleton.1 hl]
    | cons next pieces =>
      rw [intercalate_cons_cons, mem_append, mem_append]
      rcases mem_cons.1 hl with rfl | hl
      · exact .inl (.inl hc)
      · exact .inr (ih hl)

/-- A character other than a line feed stands in a row that as many line feeds as stand before it
come before. -/
theorem exists_row_of_split (front rest : List Char) {c : Char} (hc : c ≠ '\n') :
    ∃ row ∈ (splitBy (· == '\n') (front ++ c :: rest)).take (front.count '\n' + 1), c ∈ row := by
  induction front with
  | nil =>
    rw [nil_append, splitBy, if_neg (by simpa using hc)]
    cases splitBy (· == '\n') rest <;> simp
  | cons d front ih =>
    obtain ⟨row, hrow, hmem⟩ := ih
    rw [cons_append, splitBy]
    split
    · next hd =>
      rw [eq_of_beq hd, count_cons_self, take_succ_cons]
      exact ⟨row, mem_cons_of_mem _ hrow, hmem⟩
    · next hd =>
      rw [count_cons_of_ne (by simpa using hd)]
      cases hcut : splitBy (· == '\n') (front ++ c :: rest) with
      | nil => exact absurd hcut (splitBy_ne_nil _ _)
      | cons piece pieces =>
        rw [hcut, take_succ_cons, mem_cons] at hrow
        rw [take_succ_cons]
        rcases hrow with rfl | hrow
        · exact ⟨d :: row, mem_cons_self, mem_cons_of_mem d hmem⟩
        · exact ⟨row, mem_cons_of_mem _ hrow, hmem⟩

/-! ## Line feeds among bytes

Spans count bytes. A line feed is one byte, and no other character has that byte. -/

namespace Utf8

theorem toList_loop_eq (bytes : ByteArray) (i : Nat) (read : List UInt8) :
    ByteArray.toList.loop bytes i read = read.reverse ++ bytes.data.toList.drop i := by
  fun_induction ByteArray.toList.loop bytes i read with
  | case1 i read hi ih =>
    have hlt : i < bytes.data.toList.length := hi
    rw [ih, drop_eq_getElem_cons hlt]
    simp [ByteArray.get!, hi]
  | case2 i read hi => rw [drop_eq_nil_of_le (Nat.le_of_not_lt hi), append_nil]

theorem encode_eq (s : String) : encode s = s.toList.flatMap String.utf8EncodeChar := by
  rw [encode, ByteArray.toList, toList_loop_eq, String.toUTF8_eq_toByteArray,
    ← String.utf8Encode_toList, List.utf8Encode, toList_data_toByteArray]
  rfl

theorem feed_not_mem {c : Char} (hc : c ≠ '\n') : 10 ∉ String.utf8EncodeChar c := by
  have hbyte {m : Nat} (hm : m ≠ 10) (hlt : m < 256) : 10 ≠ UInt8.ofNat m := by
    intro h
    have hnat : 10 = (UInt8.ofNat m).toNat := congrArg UInt8.toNat h
    rw [UInt8.toNat_ofNat_of_lt' hlt] at hnat
    exact hm hnat.symm
  have hval : c.val.toNat ≠ 10 := fun h => hc (Char.ext (UInt32.toNat_inj.1 h))
  unfold String.utf8EncodeChar
  dsimp only
  -- one byte for the character itself, or two to four that are all above the ASCII range
  split
  · rw [mem_singleton]
    exact hbyte hval (by omega)
  · split
    · simp only [mem_cons, not_mem_nil, or_false, not_or]
      refine ⟨?_, ?_⟩ <;> exact hbyte (by omega) (by omega)
    · split
      · simp only [mem_cons, not_mem_nil, or_false, not_or]
        refine ⟨?_, ?_, ?_⟩ <;> exact hbyte (by omega) (by omega)
      · simp only [mem_cons, not_mem_nil, or_false, not_or]
        refine ⟨?_, ?_, ?_, ?_⟩ <;> exact hbyte (by omega) (by omega)

theorem count_feed (cs : List Char) :
    (cs.flatMap String.utf8EncodeChar).count 10 = cs.count '\n' := by
  induction cs with
  | nil => rfl
  | cons c cs ih =>
    rw [flatMap_cons, count_append, ih]
    by_cases hc : c = '\n'
    · subst hc
      rw [count_cons_self, Nat.add_comm]
      rfl
    · rw [count_eq_zero.2 (feed_not_mem hc), count_cons_of_ne hc, Nat.zero_add]

/-- A part that reaches the last line feed of bytes that end in one, and that does not start after
it, ends in it. -/
theorem getLast?_slice {bytes : List UInt8} {start stop : Nat} (hlast : bytes.getLast? = some 10)
    (hstop : bytes.count 10 ≤ (bytes.take stop).count 10)
    (hstart : (bytes.take start).count 10 < bytes.count 10) :
    ((bytes.take stop).drop start).getLast? = some 10 := by
  have hsplit (i : Nat) : (bytes.take i).count 10 + (bytes.drop i).count 10 = bytes.count 10 := by
    rw [← count_append, take_append_drop]
  have hall : bytes.take stop = bytes := by
    rw [take_eq_self_iff]
    by_contra hshort
    have hmem : (10 : UInt8) ∈ bytes.drop stop :=
      mem_of_getLast? (by rw [getLast?_drop, if_neg hshort, hlast])
    have hpos := count_pos_iff.2 hmem
    have := hsplit stop
    omega
  have hinside : ¬ bytes.length ≤ start := by
    intro hle
    rw [take_of_length_le hle] at hstart
    exact Nat.lt_irrefl _ hstart
  rw [hall, getLast?_drop, if_neg hinside, hlast]

end Utf8

end Text

namespace Summary

open Source (Tree Parsed)

variable {files : Files} {root : Path} {source : String} {p : Parsed} {t : Tree} {n : Node}
  {most : Int}

/-- The rows of a source text from the first to the last row of a tree node. -/
def rowsOf (source : String) (p : Parsed) (t : Tree) : List String :=
  ((splitChar '\n' source).take (p.lastLine t)).drop (p.firstLine t - 1)

/-- A symbol says where a tree node stands that does not end in a line feed. Its file holds the
source text, and at most some lines, not fewer than the node has, are wanted of it. -/
structure Locates (files : Files) (root : Path) (source : String) (p : Parsed) (t : Tree) (n : Node)
    (most : Int) :
    Prop where
  content : files.content? (root.child n.loc.file) = some source
  bytes : p.bytes = Utf8.encode source
  first : n.loc.first = p.firstLine t
  last : n.loc.last = p.lastLine t
  whole : (p.slice t).getLast? ≠ some 10
  enough : ((p.lastLine t + 1 - p.firstLine t : Nat) : Int) ≤ most

theorem lineRange_eq (lines : List String) (first last : Nat) :
    lineRange lines (first + 1 : Nat) last = (lines.take last).drop first := by
  have hstart : ((first + 1 : Nat) - 1 : Int).toNat = first := by omega
  have hstop : (if 0 ≤ min (lines.length : Int) last then min (lines.length : Int) last
      else lines.length + min (lines.length : Int) last).toNat = min lines.length last := by
    rw [if_pos (by omega)]
    omega
  rw [lineRange, hstart, hstop, Nat.min_comm, ← take_eq_take_min]

/-- The text of a symbol is cut into lines, while trees count rows. -/
theorem snippet_eq (h : Locates files root source p t n most) (hreturn : '\r' ∉ source.toList) :
    snippet files root most n =
      join "\n" (((lines source).take (p.lastLine t)).drop (p.firstLine t - 1)) := by
  have htext : files.text? (root.child n.loc.file) = some source := by
    rw [Files.text?, h.content, Option.map_some, unixLines_of_not_mem hreturn]
  have hrange : lineRange (lines source) n.loc.first n.loc.last =
      ((lines source).take (p.lastLine t)).drop (p.firstLine t - 1) := by
    rw [h.first, h.last]
    exact lineRange_eq (lines source) (p.firstLine t - 1) (p.lastLine t)
  have hshort : ((((lines source).take (p.lastLine t)).drop (p.firstLine t - 1)).length :
      Int) ≤ most := by
    refine Int.le_trans (Int.ofNat_le.2 ?_) h.enough
    rw [length_drop, length_take]
    have : 1 ≤ p.firstLine t := Nat.le_add_left ..
    omega
  rw [snippet, htext]
  simp only [hrange, shorten, if_pos hshort]

theorem firstLine_eq (h : Locates files root source p t n most) :
    p.firstLine t - 1 = ((Utf8.encode source).take t.start).count 10 := by
  rw [Parsed.firstLine, Parsed.lineAt, h.bytes, Nat.add_sub_cancel]

/-- **Where only line feeds end lines, a symbol has its rows.** Those that come after it do not
matter. -/
theorem snippet_of_rows (h : Locates files root source p t n most) (hreturn : '\r' ∉ source.toList)
    (hrows : ∀ row ∈ (splitChar '\n' source).take (p.lastLine t), ∀ c ∈ row.toList,
      isLineEnd c = false) :
    snippet files root most n = join "\n" (rowsOf source p t) := by
  have hsource : ['\n'].intercalate (Text.splitBy (· == '\n') source.toList) = source.toList :=
    Text.intercalate_splitBy '\n' source.toList
  have hfree : ∀ l ∈ (Text.splitBy (· == '\n') source.toList).take (p.lastLine t), ∀ c ∈ l,
      isLineEnd c = false := by
    intro l hl c hc
    refine hrows (String.ofList l) ?_ c (by rwa [String.toList_ofList])
    rw [splitChar, ← map_take]
    exact mem_map_of_mem hl
  have htake := Text.take_lineList (Text.splitBy_ne_nil _ _) hfree
  rw [hsource] at htake
  rw [snippet_eq h hreturn, rowsOf, lines, splitChar]
  rcases htake with hsame | ⟨hall, hlines, hlast⟩
  · rw [← map_take, ← map_take, hsame]
  · -- the last row is empty and no line; the symbol starts in it, or it would end in the line
    -- feed before it
    have hlength : (lineList source.toList).length = (Utf8.encode source).count 10 := by
      have hcount := congrArg List.length hlines
      rw [Text.length_splitBy, length_append, length_singleton] at hcount
      rw [Utf8.encode_eq, Utf8.count_feed]
      exact (Nat.succ.inj hcount).symm
    have hstart : (lineList source.toList).length ≤ p.firstLine t - 1 := by
      by_contra hbefore
      rw [hlength, firstLine_eq h, Nat.not_le] at hbefore
      have hstop : (Utf8.encode source).count 10 ≤
          ((Utf8.encode source).take t.stop).count 10 := by
        rw [hlines, length_append, length_singleton, hlength] at hall
        rw [Parsed.lastLine, Parsed.lineAt, h.bytes] at hall
        exact Nat.le_of_succ_le_succ hall
      have hend : (Utf8.encode source).getLast? = some 10 := by
        cases hchar : source.toList.getLast? with
        | none =>
          rw [Utf8.encode_eq, getLast?_eq_none_iff.1 hchar] at hbefore
          exact absurd hbefore (Nat.not_lt_zero _)
        | some c =>
          obtain ⟨front, hfront⟩ := getLast?_eq_some_iff.1 hchar
          rw [Utf8.encode_eq, hfront, hlast c hchar, flatMap_append, getLast?_append]
          rfl
      refine h.whole ?_
      rw [Parsed.slice, h.bytes]
      exact Utf8.getLast?_slice hend hstop hbefore
    have hnone : (((lineList source.toList).map String.ofList).take (p.lastLine t)).drop
        (p.firstLine t - 1) = [] :=
      drop_of_length_le (by rw [length_take, length_map]; omega)
    rw [hnone, ← map_take, take_of_length_le hall, hlines, map_append, drop_append,
      drop_of_length_le (by rwa [length_map]), nil_append]
    cases (p.firstLine t - 1 - ((lineList source.toList).map String.ofList).length) with
    | zero => rfl
    | succ k => rw [map_singleton, drop_succ_cons, drop_nil]

/-- **A symbol loses every other character that ends a line.** -/
theorem snippet_ne_rows (h : Locates files root source p t n most) (hreturn : '\r' ∉ source.toList)
    (hcut : ∃ row ∈ rowsOf source p t, ∃ c ∈ row.toList, isLineEnd c) :
    snippet files root most n ≠ join "\n" (rowsOf source p t) := by
  obtain ⟨row, hrow, c, hc, hend⟩ := hcut
  have hfeed : c ≠ '\n' := by
    rintro rfl
    obtain ⟨piece, hpiece, rfl⟩ := mem_map.1 (mem_of_mem_take (mem_of_mem_drop hrow))
    rw [String.toList_ofList] at hc
    exact Bool.false_ne_true ((Text.of_mem_splitBy hpiece _ hc).symm.trans (beq_self_eq_true '\n'))
  intro heq
  have hmem : c ∈ (snippet files root most n).toList := by
    rw [heq, toList_join]
    exact mem_intercalate_of_mem (mem_map_of_mem hrow) hc
  rw [snippet_eq h hreturn] at hmem
  rcases mem_join hmem with hsep | ⟨line, hline, hc⟩
  · exact hfeed (mem_singleton.1 hsep)
  · obtain ⟨l, hl, rfl⟩ := mem_map.1 (mem_of_mem_take (mem_of_mem_drop hline))
    rw [String.toList_ofList] at hc
    rw [isLineEnd_of_mem_lineList hl c hc] at hend
    cases hend

/-- A tree node from the start of a source text up to a character of it. -/
def upTo (front : List Char) (c : Char) : Tree :=
  .node "block" 0 ((front ++ [c]).flatMap String.utf8EncodeChar).length []

theorem slice_upTo {front rest : List Char} {c : Char} (hsource : source.toList = front ++ c ::
    rest) :
    (Utf8.encode source).take (upTo front c).stop =
      (front ++ [c]).flatMap String.utf8EncodeChar := by
  rw [Utf8.encode_eq, hsource, append_cons, flatMap_append, upTo, Tree.stop, take_left]

theorem locates_upTo {front rest : List Char} {c : Char} {file : String}
    (hsource : source.toList = front ++ c :: rest)
    (hc : c ≠ '\n') (hcontent : files.content? (root.child file) = some source) :
    Locates files root source ⟨Utf8.encode source, upTo front c⟩ (upTo front c)
      { (default : Node) with loc := ⟨file, 1, (front.count '\n' + 1 : Nat)⟩ }
        (front.count '\n' + 1 : Nat) ∧
    Parsed.lastLine ⟨Utf8.encode source, upTo front c⟩ (upTo front c) =
      front.count '\n' + 1 := by
  have hlast : Parsed.lastLine ⟨Utf8.encode source, upTo front c⟩ (upTo front c) =
      front.count '\n' + 1 := by
    rw [Parsed.lastLine, Parsed.lineAt, slice_upTo hsource, Utf8.count_feed, count_append,
      count_singleton, beq_false_of_ne hc]
    rfl
  refine ⟨⟨hcontent, rfl, rfl, by rw [hlast], ?_, ?_⟩, hlast⟩
  · rw [Parsed.slice, slice_upTo hsource]
    intro hend
    rw [show (upTo front c).start = 0 from rfl, drop_zero, flatMap_append, flatMap_singleton,
      getLast?_append_of_ne_nil _ (String.utf8EncodeChar_ne_nil)] at hend
    exact Utf8.feed_not_mem hc (mem_of_getLast? hend)
  · rw [hlast]
    exact Int.ofNat_le.2 (Nat.sub_le_sub_right (Nat.le_refl _) 1)

/-- **The text of a symbol consists of its rows if only line feeds end lines up to its last row**,
and it does not if another character ends a line in its rows. So all symbols of a source text have
their rows if and only if only line feeds end lines in it. -/
theorem snippet_rows_iff {file : String} (hcontent : files.content? (root.child file) = some source)
    (hreturn : '\r' ∉ source.toList) :
    (∀ p t n most, Locates files root source p t n most →
      ((∀ row ∈ (Text.splitChar '\n' source).take (p.lastLine t), ∀ c ∈ row.toList,
        Text.isLineEnd c = false) →
        snippet files root most n = Text.join "\n" (rowsOf source p t)) ∧
      ((∃ row ∈ rowsOf source p t, ∃ c ∈ row.toList, Text.isLineEnd c = true) →
        snippet files root most n ≠ Text.join "\n" (rowsOf source p t))) ∧
    ((∀ p t n most, t ∈ p.root.preorder → n.loc.file = file → Locates files root source p t n most →
        snippet files root most n = Text.join "\n" (rowsOf source p t)) ↔
      ∀ c ∈ source.toList, Text.isLineEnd c = true → c = '\n') := by
  refine ⟨fun p t n most h => ⟨snippet_of_rows h hreturn, snippet_ne_rows h hreturn⟩,
    fun hall c hc hend => ?_, ?_⟩
  · by_contra hfeed
    obtain ⟨front, rest, hsource⟩ := append_of_mem hc
    obtain ⟨hlocates, hlast⟩ := locates_upTo hsource hfeed hcontent
    refine snippet_ne_rows hlocates hreturn ?_ (hall _ _ _ _ (by simp [upTo, Tree.preorder]) rfl
      hlocates)
    obtain ⟨row, hrow, hmem⟩ := Text.exists_row_of_split front rest hfeed
    refine ⟨String.ofList row, ?_, c, by rwa [String.toList_ofList], hend⟩
    rw [← hsource] at hrow
    rw [rowsOf, hlast, Text.splitChar, ← map_take]
    exact mem_map_of_mem hrow
  · intro honly p t n most _ _ h
    refine snippet_of_rows h hreturn fun row hrow c hc => ?_
    obtain ⟨piece, hpiece, rfl⟩ := mem_map.1 (mem_of_mem_take hrow)
    rw [String.toList_ofList] at hc
    by_contra hend
    have hmem : c ∈ source.toList := by
      rw [← Text.intercalate_splitBy '\n' source.toList]
      exact Text.mem_intercalate_of_mem hpiece hc
    have hfeed := honly c hmem (by simpa using hend)
    exact Bool.false_ne_true ((Text.of_mem_splitBy hpiece c hc).symm.trans (by simp [hfeed]))

/-- A file with a form feed. -/
def fedFiles : Files :=
  ⟨.dir [("a.py", .file "a\x0cb")]⟩

theorem snippet_rows_iff_fedFiles :
    fedFiles.content? (Path.child ⟨true, []⟩ "a.py") = some "a\x0cb" ∧
    '\r' ∉ "a\x0cb".toList ∧ ∃ p t n most, t ∈ p.root.preorder ∧ n.loc.file = "a.py" ∧
      Locates fedFiles ⟨true, []⟩ "a\x0cb" p t n most ∧
      snippet fedFiles ⟨true, []⟩ most n ≠ Text.join "\n" (rowsOf "a\x0cb" p t) := by
  have hcontent : fedFiles.content? (Path.child ⟨true, []⟩ "a.py") = some "a\x0cb" := by decide
  have hreturn : '\r' ∉ "a\x0cb".toList := by decide
  refine ⟨hcontent, hreturn, ?_⟩
  by_contra hnone
  have hall := (snippet_rows_iff hcontent hreturn).2.1 fun p t n most ht hfile h => by
    by_contra hne
    exact hnone ⟨p, t, n, most, ht, hfile, h, hne⟩
  exact absurd (hall (Char.ofNat 12) (by decide) (by decide)) (by decide)

end Summary

end CodeAtlas
