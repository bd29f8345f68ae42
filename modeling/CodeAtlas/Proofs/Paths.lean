import CodeAtlas.Project.Path

/-!
# Paths and their texts

A path whose names a text can write is read back from its text, so two such paths with one text are
one path.
-/

namespace CodeAtlas

open List Text

namespace Text

variable {p : Char → Bool}

theorem splitBy_ne_nil (p : Char → Bool) (cs : List Char) : splitBy p cs ≠ [] := by
  cases cs with
  | nil => exact nofun
  | cons c cs =>
    rw [splitBy]
    split
    · exact nofun
    · split <;> exact nofun

theorem of_mem_splitBy {cs piece : List Char} (h : piece ∈ splitBy p cs) :
    ∀ c ∈ piece, p c = false := by
  induction cs generalizing piece with
  | nil =>
    rw [mem_singleton.1 h]
    exact nofun
  | cons c cs ih =>
    rw [splitBy] at h
    split at h
    · rcases mem_cons.1 h with rfl | h
      · exact nofun
      · exact ih h
    · next hc =>
      cases hcut : splitBy p cs with
      | nil => exact absurd hcut (splitBy_ne_nil p cs)
      | cons first rest =>
        rw [hcut] at h ih
        rcases mem_cons.1 h with rfl | h
        · exact forall_mem_cons.2 ⟨Bool.not_eq_true _ ▸ hc, ih mem_cons_self⟩
        · exact ih (mem_cons_of_mem _ h)

theorem intercalate_splitBy (sep : Char) (cs : List Char) :
    [sep].intercalate (splitBy (· == sep) cs) = cs := by
  induction cs with
  | nil => rfl
  | cons c cs ih =>
    rw [splitBy]
    cases hcut : splitBy (· == sep) cs with
    | nil => exact absurd hcut (splitBy_ne_nil _ cs)
    | cons first rest =>
      rw [hcut] at ih
      split
      · next hc =>
        rw [beq_iff_eq.1 hc, intercalate_cons_cons, ih]
        rfl
      · cases rest with
        | nil =>
          rw [intercalate_singleton] at ih ⊢
          rw [ih]
        | cons second rest =>
          rw [intercalate_cons_cons] at ih ⊢
          rw [← ih, cons_append]
          rfl

theorem splitBy_of_forall_not {cs : List Char} (h : ∀ c ∈ cs, p c = false) :
    splitBy p cs = [cs] := by
  induction cs with
  | nil => rfl
  | cons c cs ih =>
    rw [splitBy, if_neg (by simp [h c]), ih fun d hd => h d (mem_cons_of_mem c hd)]

theorem splitBy_append_cons {cs rest : List Char} {c : Char} (h : ∀ d ∈ cs, p d = false)
    (hc : p c) : splitBy p (cs ++ c :: rest) = cs :: splitBy p rest := by
  induction cs with
  | nil => rw [nil_append, splitBy, if_pos hc]
  | cons d cs ih =>
    rw [cons_append, splitBy, if_neg (by simp [h d]),
      ih fun e he => h e (mem_cons_of_mem d he)]

theorem splitBy_join {sep : Char} {pieces : List String} (hne : pieces ≠ [])
    (h : ∀ s ∈ pieces, sep ∉ s.toList) :
    splitBy (· == sep) (join (String.singleton sep) pieces).toList = pieces.map String.toList := by
  have hnot : ∀ s ∈ pieces, ∀ c ∈ s.toList, (c == sep) = false := by
    intro s hs c hc
    rw [beq_eq_false_iff_ne]
    rintro rfl
    exact h s hs hc
  induction pieces with
  | nil => exact absurd rfl hne
  | cons s rest ih =>
    have hs := hnot s mem_cons_self
    cases rest with
    | nil => rw [join, splitBy_of_forall_not hs, map_singleton]
    | cons s' rest =>
      have ih := ih (cons_ne_nil _ _) (fun u hu => h u (mem_cons_of_mem s hu))
        fun u hu => hnot u (mem_cons_of_mem s hu)
      simp only [join, String.toList_append, String.toList_singleton, append_assoc,
        singleton_append]
      rw [splitBy_append_cons hs (beq_self_eq_true sep), ih]
      rfl

theorem splitChar_join {sep : Char} {pieces : List String} (hne : pieces ≠ [])
    (h : ∀ s ∈ pieces, sep ∉ s.toList) :
    splitChar sep (join (String.singleton sep) pieces) = pieces := by
  rw [splitChar, splitBy_join hne h, map_map]
  exact (map_congr_left fun s _ => String.ofList_toList).trans (map_id _)

end Text

namespace Path

/-- The names of the path can stand in a text: none is empty, a single dot or has a slash. -/
def Clean (p : Path) : Prop :=
  ∀ s ∈ p.parts, s ≠ "" ∧ s ≠ "." ∧ '/' ∉ s.toList

instance (p : Path) : Decidable p.Clean :=
  inferInstanceAs (Decidable (∀ s ∈ p.parts, s ≠ "" ∧ s ≠ "." ∧ '/' ∉ s.toList))

variable {p q base : Path}

theorem filter_parts (h : p.Clean) :
    p.parts.filter (fun s => !(s.isEmpty || s == ".")) = p.parts := by
  rw [filter_eq_self]
  intro s hs
  simp [h s hs]

theorem splitChar_join_parts (h : p.Clean) (hne : p.parts ≠ []) :
    splitChar '/' (join "/" p.parts) = p.parts :=
  splitChar_join hne fun s hs => (h s hs).2.2

theorem not_startsWith_join_parts (h : p.Clean) (hne : p.parts ≠ []) :
    startsWith (join "/" p.parts) "/" = false := by
  obtain ⟨absolute, parts⟩ := p
  cases parts with
  | nil => exact absurd rfl hne
  | cons s rest =>
    obtain ⟨hs, -, hslash⟩ := h s mem_cons_self
    cases hchars : s.toList with
    | nil => exact absurd (String.toList_eq_nil_iff.1 hchars) hs
    | cons c cs =>
      have hc : '/' ≠ c := by
        rintro rfl
        exact hslash (hchars ▸ mem_cons_self)
      -- the text starts with the first character of the first name
      have hjoin : ∃ tail, (join "/" (s :: rest)).toList = c :: tail := by
        cases rest with
        | nil => exact ⟨cs, hchars⟩
        | cons s' rest =>
            exact ⟨_, by simp only [join, String.toList_append, hchars, cons_append]; rfl⟩
      obtain ⟨tail, htail⟩ := hjoin
      simp [startsWith, htail, List.isPrefixOf, hc]

/-- **A clean path is read back from its text.** -/
theorem ofText_toText (h : p.Clean) : ofText p.toText = p := by
  obtain ⟨absolute, parts⟩ := p
  have hfilter := filter_parts h
  by_cases hne : parts = []
  · -- the text is a dot or a slash
    subst hne
    cases absolute <;> decide
  · have hsplit := splitChar_join_parts h hne
    cases absolute with
    | false =>
      have hstart := not_startsWith_join_parts h hne
      simp_all [ofText, toText]
    | true =>
      -- the slash in front cuts off an empty piece, which is not kept
      have hslash : splitChar '/' ("/" ++ join "/" parts) =
          "" :: splitChar '/' (join "/" parts) := by
        rw [splitChar, String.toList_append]
        rfl
      have hstart : startsWith ("/" ++ join "/" parts) "/" := by
        rw [startsWith, String.toList_append]
        rfl
      simp_all [ofText, toText]

theorem parts_of_relativeTo? (h : p.relativeTo? base = some q) :
    p.absolute = base.absolute ∧ p.parts = base.parts ++ q.parts ∧ q.absolute = false := by
  rw [relativeTo?] at h
  split at h
  · next hin =>
    rw [Bool.and_eq_true, beq_iff_eq, isPrefixOf_iff_prefix] at hin
    obtain ⟨habs, rest, hrest⟩ := hin
    obtain rfl := Option.some.inj h
    refine ⟨habs, ?_, rfl⟩
    rw [← hrest, drop_left]
  · cases h

theorem eq_of_relative_text_eq {p' q' : Path} (hp : p.Clean) (hp' : p'.Clean)
    (h : p.relativeTo? base = some q) (h' : p'.relativeTo? base = some q')
    (ht : q.toText = q'.toText) : p = p' := by
  obtain ⟨habs, hparts, hq⟩ := parts_of_relativeTo? h
  obtain ⟨habs', hparts', hq'⟩ := parts_of_relativeTo? h'
  have hclean : q.Clean := fun s hs => hp s (hparts ▸ mem_append_right _ hs)
  have hclean' : q'.Clean := fun s hs => hp' s (hparts' ▸ mem_append_right _ hs)
  have hqq : q = q' := by rw [← ofText_toText hclean, ht, ofText_toText hclean']
  subst hqq
  obtain ⟨absolute, parts⟩ := p
  obtain ⟨absolute', parts'⟩ := p'
  simp_all

end Path

end CodeAtlas
