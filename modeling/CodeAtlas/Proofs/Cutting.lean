import Mathlib.Data.List.Infix
import Mathlib.Data.List.TakeWhile
import CodeAtlas.Proofs.Paths
import CodeAtlas.Text.Trim

/-!
# Cutting texts apart

What the pieces of a text are that was put together from them.
-/

namespace CodeAtlas.Text

open List

variable {sep a b rest : List Char}

/-- No occurrence of the separator starts in `a`, where `rest` follows. -/
def Clear (sep a rest : List Char) : Prop :=
  ∀ ⦃tail : List Char⦄, tail <:+ a → tail ≠ [] → ¬ sep <+: tail ++ rest

theorem clear_nil : Clear sep [] rest :=
  fun _ htail hne => absurd (suffix_nil.1 htail) hne

variable {c : Char} {pieces : List String}

theorem clear_cons_iff :
    Clear sep (c :: a) rest ↔ ¬ sep <+: c :: (a ++ rest) ∧ Clear sep a rest := by
  constructor
  · intro h
    exact ⟨h suffix_rfl (cons_ne_nil c a), fun _ htail => h (htail.trans (suffix_cons c a))⟩
  · rintro ⟨hhere, hlater⟩ tail htail hne
    rcases suffix_cons_iff.1 htail with rfl | htail
    · exact hhere
    · exact hlater htail hne

theorem Clear.append (ha : Clear sep a (b ++ rest)) (hb : Clear sep b rest) :
    Clear sep (a ++ b) rest := by
  induction a with
  | nil => exact hb
  | cons c a ih =>
    obtain ⟨hhere, hlater⟩ := clear_cons_iff.1 ha
    rw [← append_assoc] at hhere
    exact clear_cons_iff.2 ⟨hhere, ih hlater⟩

theorem prefix_append_cases (h : sep <+: a ++ rest) :
    sep <+: a ∨ ∃ more, more ≠ [] ∧ sep = a ++ more ∧ more <+: rest := by
  rcases prefix_or_prefix_of_prefix h (prefix_append a rest) with hin | ⟨more, rfl⟩
  · exact .inl hin
  · by_cases hmore : more = []
    · exact .inl (by simp [hmore])
    · exact .inr ⟨more, hmore, rfl, (prefix_append_right_inj a).1 h⟩

/-! ## Cutting at a separator

A separator is found where it was put, if none starts earlier in what stands before it. -/

theorem splitOnFrom_of_clear (h : Clear sep a rest) (piece : List Char) :
    splitOnFrom sep 0 piece (a ++ rest) = splitOnFrom sep 0 (a.reverse ++ piece) rest := by
  induction a generalizing piece with
  | nil => rfl
  | cons c a ih =>
    obtain ⟨hhere, hlater⟩ := clear_cons_iff.1 h
    rw [cons_append, splitOnFrom, if_neg (by simpa using hhere), ih hlater, reverse_cons,
      append_assoc, singleton_append]

theorem splitOnFrom_skip (skipped piece : List Char) :
    splitOnFrom sep skipped.length piece (skipped ++ rest) = splitOnFrom sep 0 piece rest := by
  induction skipped with
  | nil => rfl
  | cons c skipped ih => rw [cons_append, length_cons, splitOnFrom, ih]

theorem splitOnFrom_sep (hsep : sep ≠ []) (piece : List Char) :
    splitOnFrom sep 0 piece (sep ++ rest) = piece.reverse :: splitOnFrom sep 0 [] rest := by
  cases sep with
  | nil => exact absurd rfl hsep
  | cons c sep =>
    have hprefix : (c :: sep).isPrefixOf (c :: (sep ++ rest)) :=
      isPrefixOf_iff_prefix.2 (prefix_append (c :: sep) rest)
    rw [cons_append, splitOnFrom, if_pos hprefix]
    exact congrArg _ (splitOnFrom_skip sep [])

theorem splitOnFrom_last (h : Clear sep a []) : splitOnFrom sep 0 [] a = [a] := by
  have hall := splitOnFrom_of_clear h []
  rw [append_nil, append_nil] at hall
  rw [hall, splitOnFrom, reverse_reverse]

theorem splitOnFrom_flatMap (hsep : sep ≠ []) {pieces : List (List Char)}
    (hpieces : ∀ a ∈ pieces, Clear sep a [] ∧ ∀ rest, Clear sep a (sep ++ rest))
    (piece : List Char) :
    splitOnFrom sep 0 piece (pieces.flatMap (sep ++ ·)) = piece.reverse :: pieces := by
  induction pieces generalizing piece with
  | nil => rfl
  | cons a pieces ih =>
    obtain ⟨hlast, hmore⟩ := hpieces a mem_cons_self
    rw [flatMap_cons, append_assoc, splitOnFrom_sep hsep]
    cases pieces with
    | nil => rw [flatMap_nil, append_nil, splitOnFrom_last hlast]
    | cons b pieces =>
      have hclear : Clear sep a ((b :: pieces).flatMap (sep ++ ·)) := by
        rw [flatMap_cons, append_assoc]
        exact hmore _
      rw [splitOnFrom_of_clear hclear, ih fun b hb => hpieces b (mem_cons_of_mem a hb), append_nil,
        reverse_reverse]

/-- Pieces are told apart if no separator starts in one of them, not even across its end. -/
theorem splitOn_join {sep : String} (hsep : sep.toList ≠ []) (hne : pieces ≠ [])
    (hpieces : ∀ s ∈ pieces, Clear sep.toList s.toList [] ∧ ∀ rest,
      Clear sep.toList s.toList (sep.toList ++ rest)) : splitOn sep (join sep pieces) = pieces := by
  induction pieces with
  | nil => exact absurd rfl hne
  | cons s pieces ih =>
    obtain ⟨hlast, hmore⟩ := hpieces s mem_cons_self
    cases pieces with
    | nil => rw [join, splitOn, splitOnFrom_last hlast, map_singleton, String.ofList_toList]
    | cons s' pieces =>
      have hrest := ih (cons_ne_nil _ _) fun u hu => hpieces u (mem_cons_of_mem s hu)
      rw [splitOn] at hrest
      rw [join, splitOn, String.toList_append, String.toList_append, append_assoc,
        splitOnFrom_of_clear (hmore _), splitOnFrom_sep hsep, map_cons, hrest, append_nil,
        reverse_reverse, String.ofList_toList]
      exact cons_ne_nil s' pieces

theorem exists_toList_join_head (sep s : String) (rest : List String) :
    ∃ after, (join sep (s :: rest)).toList = s.toList ++ after := by
  cases rest with
  | nil => exact ⟨[], by rw [join, append_nil]⟩
  | cons s' rest =>
      exact ⟨_, by rw [join, String.toList_append, String.toList_append, append_assoc]; simp⟩

theorem exists_toList_join_last (sep s : String) (front : List String) :
    ∃ before, (join sep (front ++ [s])).toList = before ++ s.toList := by
  induction front with
  | nil => exact ⟨[], rfl⟩
  | cons t front ih =>
    obtain ⟨before, hbefore⟩ := ih
    refine ⟨t.toList ++ sep.toList ++ before, ?_⟩
    cases front with
    | nil => simp_all [join]
    | cons t' front => simp_all [join]

theorem mem_join {sep : String} (hc : c ∈ (join sep pieces).toList) :
    c ∈ sep.toList ∨ ∃ s ∈ pieces, c ∈ s.toList := by
  induction pieces with
  | nil => simp [join] at hc
  | cons s pieces ih =>
    cases pieces with
    | nil => exact .inr ⟨s, mem_cons_self, hc⟩
    | cons s' pieces =>
      rw [join, String.toList_append, String.toList_append, mem_append, mem_append] at hc
      · rcases hc with (hc | hc) | hc
        · exact .inr ⟨s, mem_cons_self, hc⟩
        · exact .inl hc
        · rcases ih hc with hsep | ⟨u, hu, hmem⟩
          · exact .inl hsep
          · exact .inr ⟨u, mem_cons_of_mem s hu, hmem⟩
      · exact cons_ne_nil s' pieces

theorem join_ends (sep : String) {p : Char → Bool} (hne : pieces ≠ [])
    (h : ∀ s ∈ pieces, s.toList ≠ [] ∧ ∀ c ∈ s.toList, p c = false) :
    (join sep pieces).toList ≠ [] ∧
      (∀ c ∈ (join sep pieces).toList.head?, p c = false) ∧ ∀ c ∈ (join sep pieces).toList.getLast?,
        p c = false := by
  have hfront :
      (join sep pieces).toList ≠ [] ∧ ∀ c ∈ (join sep pieces).toList.head?, p c = false := by
    obtain ⟨first, others, rfl⟩ := exists_cons_of_ne_nil hne
    obtain ⟨hfirst, hchars⟩ := h first mem_cons_self
    obtain ⟨after, hjoin⟩ := exists_toList_join_head sep first others
    rw [hjoin, head?_append_of_ne_nil _ hfirst]
    exact ⟨append_ne_nil_of_left_ne_nil hfirst after, fun c hc => hchars c (mem_of_mem_head? hc)⟩
  refine ⟨hfront.1, hfront.2, ?_⟩
  obtain ⟨front, last, rfl⟩ := (eq_nil_or_concat' pieces).resolve_left hne
  obtain ⟨hlast, hchars⟩ := h last (by simp)
  obtain ⟨before, hjoin⟩ := exists_toList_join_last sep last front
  rw [hjoin, getLast?_append_of_ne_nil _ hlast]
  exact fun c hc => hchars c (mem_of_mem_getLast? hc)

theorem toList_join_append (sep : String) (hne : pieces ≠ []) :
    (join sep pieces).toList ++ sep.toList = pieces.flatMap fun s => s.toList ++ sep.toList := by
  induction pieces with
  | nil => exact absurd rfl hne
  | cons s pieces ih =>
    cases pieces with
    | nil => simp [join]
    | cons s' pieces =>
      rw [flatMap_cons, ← ih (cons_ne_nil s' pieces)]
      simp [join]

theorem toList_join_append_join (sep : String) {front rest : List String} (hfront : front ≠ [])
    (hrest : rest ≠ []) :
    (join sep (front ++ rest)).toList = (join sep front).toList ++
      (sep.toList ++ (join sep rest).toList) := by
  induction front with
  | nil => exact absurd rfl hfront
  | cons s front ih =>
    cases front with
    | nil =>
      obtain ⟨t, rest, rfl⟩ := exists_cons_of_ne_nil hrest
      simp [join]
    | cons s' front =>
      have ih := ih (cons_ne_nil s' front)
      rw [cons_append] at ih
      simp only [cons_append, join, String.toList_append, ih, append_assoc]

theorem splitBy_lines {p : Char → Bool} {e : Char} (he : p e) {pieces : List (List Char)}
    (hpieces : ∀ l ∈ pieces, ∀ c ∈ l, p c = false) :
    splitBy p (pieces.flatMap (· ++ [e])) = pieces ++ [[]] := by
  induction pieces with
  | nil => rfl
  | cons l pieces ih =>
    rw [flatMap_cons, append_assoc, singleton_append,
      splitBy_append_cons (hpieces l mem_cons_self) he,
        ih fun l' hl' => hpieces l' (mem_cons_of_mem l hl')]
    rfl

theorem lineList_append_newline {l : List Char} (hl : ∀ c ∈ l, isLineEnd c = false)
    (rest : List Char) : lineList (l ++ '\n' :: rest) = l :: lineList rest := by
  have hnewline : isLineEnd '\n' := by decide
  induction l with
  | nil => cases rest <;> simp [lineList, hnewline]
  | cons c l ih =>
    have hc := hl c mem_cons_self
    have hrest := ih fun d hd => hl d (mem_cons_of_mem c hd)
    -- the line does not end here, so its first character goes in front of the rest of it
    cases hcs : l ++ '\n' :: rest with
    | nil => simp at hcs
    | cons d cs =>
      rw [hcs] at hrest
      rw [cons_append, hcs, lineList, if_neg (by simp [hc]), hrest]

theorem lines_join {ls : List String} (hls : ∀ l ∈ ls, ∀ c ∈ l.toList, isLineEnd c = false) :
    lines (String.join (ls.map (· ++ "\n"))) = ls := by
  have htext : lineList (ls.flatMap fun l => l.toList ++ ['\n']) = ls.map String.toList := by
    induction ls with
    | nil => rfl
    | cons l ls ih =>
      rw [flatMap_cons, append_assoc, singleton_append,
        lineList_append_newline (hls l mem_cons_self), ih fun l' hl' =>
          hls l' (mem_cons_of_mem l hl')]
      rfl
  rw [lines, String.toList_join, flatMap_map]
  simp only [String.toList_append]
  exact (congrArg (List.map String.ofList) htext).trans (by simp [Function.comp_def])

variable {p : Char → Bool}

theorem dropWhile_of_head? (h : ∀ c ∈ a.head?, p c = false) : a.dropWhile p = a := by
  cases a with
  | nil => rfl
  | cons c a => rw [dropWhile_cons_of_neg (by rw [h c rfl]; simp)]

/-- Trimming takes off blanks that were put behind a text whose ends are not blank. -/
theorem trimList_of_ends (hne : a ≠ []) (hhead : ∀ c ∈ a.head?, p c = false)
    (hlast : ∀ c ∈ a.getLast?, p c = false)
    {blanks : List Char} (hblanks : ∀ c ∈ blanks, p c) : trimList p (a ++ blanks) = a := by
  have hleading : dropLeading p (a ++ blanks) = a ++ blanks := by
    refine dropWhile_of_head? ?_
    rwa [head?_append_of_ne_nil _ hne]
  have htrailing : (a ++ blanks).reverse.dropWhile p = a.reverse := by
    rw [reverse_append, dropWhile_append_of_pos (by simpa using hblanks), dropWhile_of_head?]
    simpa using hlast
  rw [trimList, hleading, dropTrailing, htrailing, reverse_reverse]

theorem trimList_append_left {blanks : List Char} (h : ∀ c ∈ blanks, p c) :
    trimList p (blanks ++ a) = trimList p a := by
  rw [trimList, dropLeading, dropWhile_append_of_pos h]
  rfl

theorem trimList_ne_nil (hc : c ∈ a) (hfull : p c = false) : trimList p a ≠ [] := by
  intro hnil
  have hleading : c ∈ dropLeading p a := by
    rw [← takeWhile_append_dropWhile (p := p) (l := a), mem_append] at hc
    refine hc.resolve_left fun hblank => ?_
    rw [mem_takeWhile_imp hblank] at hfull
    cases hfull
  rw [trimList, dropTrailing, reverse_eq_nil_iff, dropWhile_eq_nil_iff] at hnil
  rw [hnil c (mem_reverse.2 hleading)] at hfull
  cases hfull

/-! ## Characters of pieces

Whatever is cut out of a text has its characters from there. -/

theorem mem_of_mem_trimList (hc : c ∈ trimList p a) : c ∈ a := by
  have hleading := (dropWhile_suffix p).subset (mem_reverse.1 hc)
  exact (dropWhile_suffix p).subset (mem_reverse.1 hleading)

theorem mem_of_mem_splitBy {piece : List Char} (hpiece : piece ∈ splitBy p a) (hc : c ∈ piece) :
    c ∈ a := by
  induction a generalizing piece with
  | nil => rwa [mem_singleton.1 hpiece] at hc
  | cons d a ih =>
    rw [splitBy] at hpiece
    split at hpiece
    · rcases mem_cons.1 hpiece with rfl | hpiece
      · cases hc
      · exact mem_cons_of_mem d (ih hpiece hc)
    · cases hcut : splitBy p a with
      | nil => exact absurd hcut (splitBy_ne_nil p a)
      | cons first others =>
        rw [hcut] at hpiece ih
        rcases mem_cons.1 hpiece with rfl | hpiece
        · rcases mem_cons.1 hc with rfl | hc
          · exact mem_cons_self
          · exact mem_cons_of_mem d (ih mem_cons_self hc)
        · exact mem_cons_of_mem d (ih (mem_cons_of_mem first hpiece) hc)

theorem mem_of_mem_splitOnFrom {skip : Nat} {held piece : List Char}
    (hpiece : piece ∈ splitOnFrom sep skip held a) (hc : c ∈ piece) : c ∈ held ∨ c ∈ a := by
  fun_induction splitOnFrom sep skip held a with
  | case1 => simp_all
  | case2 held d a k ih => exact (ih hpiece).imp_right (mem_cons_of_mem d)
  | case3 held d a _ ih =>
    rcases mem_cons.1 hpiece with rfl | hpiece
    · exact .inl (mem_reverse.1 hc)
    · exact .inr (mem_cons_of_mem d ((ih hpiece).resolve_left not_mem_nil))
  | case4 held d a _ ih =>
    have := ih hpiece
    simp only [mem_cons] at this ⊢
    tauto

theorem mem_of_mem_trim {s : String} (hc : c ∈ (trim s).toList) : c ∈ s.toList := by
  rw [trim, trimBy, String.toList_ofList] at hc
  exact mem_of_mem_trimList hc

theorem mem_of_mem_splitChar {sep : Char} {s piece : String} (hpiece : piece ∈ splitChar sep s)
    (hc : c ∈ piece.toList) : c ∈ s.toList := by
  obtain ⟨cs, hcs, rfl⟩ := mem_map.1 hpiece
  rw [String.toList_ofList] at hc
  exact mem_of_mem_splitBy hcs hc

theorem mem_of_mem_splitOn {sep s piece : String} (hpiece : piece ∈ splitOn sep s)
    (hc : c ∈ piece.toList) : c ∈ s.toList := by
  obtain ⟨cs, hcs, rfl⟩ := mem_map.1 hpiece
  rw [String.toList_ofList] at hc
  exact (mem_of_mem_splitOnFrom hcs hc).resolve_left not_mem_nil

end CodeAtlas.Text
