import Mathlib.Data.List.Basic
import Mathlib.Data.List.TakeWhile
import CodeAtlas.Proofs.Paths
import CodeAtlas.Vector.Catalog

/-!
# Which projects share their collections

The collections of a project are named after the words of its name: the runs of small letters and
digits in its lower-case form. What stands between the words is lost, so names with the same words
are names for the same collections.
-/

namespace CodeAtlas

open List Text

namespace Text

theorem join_inj (sep : Char) {xs ys : List String} (hx : ∀ s ∈ xs, s ≠ "" ∧ sep ∉ s.toList)
    (hy : ∀ s ∈ ys, s ≠ "" ∧ sep ∉ s.toList)
    (h : join (String.singleton sep) xs = join (String.singleton sep) ys) : xs = ys := by
  have hcut {zs : List String} (hz : ∀ s ∈ zs, s ≠ "" ∧ sep ∉ s.toList) :
      (splitBy (· == sep) (join (String.singleton sep) zs).toList).filter (!·.isEmpty) =
        zs.map String.toList := by
    cases zs with
    | nil => rfl
    | cons z zs =>
      rw [splitBy_join (cons_ne_nil z zs) fun s hs => (hz s hs).2, filter_eq_self]
      intro w hw
      obtain ⟨s, hs, rfl⟩ := mem_map.1 hw
      simpa using (hz s hs).1
  have hmap : xs.map String.toList = ys.map String.toList := by rw [← hcut hx, h, hcut hy]
  exact map_injective_iff.2 (fun _ _ => String.toList_inj.1) hmap

end Text

namespace Vector

/-! ## The words of a name

A name is shortened to its words. `SpelledBy` says what these are without the loop that finds
them. -/

def isSlugChar (c : Char) : Bool :=
  ('a' ≤ c && c ≤ 'z') || ('0' ≤ c && c ≤ '9')

/-- A text has these words: its runs of small letters and digits, with anything else around them. -/
inductive SpelledBy : List (List Char) → List Char → Prop where
  | nil : SpelledBy [] []
  | skip {c : Char} {cs : List Char} {ws : List (List Char)} (hc : isSlugChar c = false)
    (h : SpelledBy ws cs) :
      SpelledBy ws (c :: cs)
  | word {w cs : List Char} {ws : List (List Char)} (hne : w ≠ [])
    (hw : ∀ c ∈ w, isSlugChar c = true)
      (hend : ∀ c ∈ cs.head?, isSlugChar c = false) (h : SpelledBy ws cs) :
        SpelledBy (w :: ws) (w ++ cs)

def wordsIn (cs : List Char) : List (List Char) :=
  (Text.splitBy (fun c => !isSlugChar c) cs).filter (!·.isEmpty)

theorem slug_eq (name : String) :
    slug name = join "_" ((wordsIn (lower name).toList).map String.ofList) :=
  rfl

theorem wordsIn_cons_of_not {c : Char} (hc : isSlugChar c = false) (cs : List Char) :
    wordsIn (c :: cs) = wordsIn cs := by
  rw [wordsIn, Text.splitBy, if_pos (by rw [hc]; rfl)]
  rfl

variable {cs : List Char} {ws : List (List Char)} {p : String}

theorem wordsIn_append {w : List Char} (hne : w ≠ []) (hw : ∀ c ∈ w, isSlugChar c)
    (hend : ∀ c ∈ cs.head?, isSlugChar c = false) : wordsIn (w ++ cs) = w :: wordsIn cs := by
  have hkept : (!w.isEmpty) := by simpa using hne
  have hcuts : ∀ c ∈ w, (!isSlugChar c) = false := fun c hc => by rw [hw c hc]; rfl
  cases cs with
  | nil =>
    rw [append_nil, wordsIn, Text.splitBy_of_forall_not hcuts, filter_cons, if_pos hkept]
    rfl
  | cons c cs =>
    have hc : isSlugChar c = false := hend c rfl
    rw [wordsIn_cons_of_not hc, wordsIn, Text.splitBy_append_cons hcuts (by rw [hc]; rfl),
      filter_cons, if_pos hkept]
    rfl

theorem SpelledBy.eq_wordsIn (h : SpelledBy ws cs) : ws = wordsIn cs := by
  induction h with
  | nil => rfl
  | skip hc _ ih => rw [ih, wordsIn_cons_of_not hc]
  | word hne hw hend _ ih => rw [wordsIn_append hne hw hend, ih]

theorem exists_spelledBy (cs : List Char) : ∃ ws, SpelledBy ws cs := by
  -- on the length, since a word is taken off as a whole
  induction hlen : cs.length using Nat.strongRecOn generalizing cs with
  | ind n ih =>
    cases cs with
    | nil => exact ⟨[], .nil⟩
    | cons c cs =>
      by_cases hc : isSlugChar c
      · have hsplit : c :: cs = (c :: cs.takeWhile isSlugChar) ++ cs.dropWhile isSlugChar := by
          rw [cons_append, takeWhile_append_dropWhile]
        have hshort : (cs.dropWhile isSlugChar).length < n := by
          have hle := (dropWhile_suffix (l := cs) isSlugChar).length_le
          rw [← hlen, length_cons]
          omega
        obtain ⟨ws, hws⟩ := ih _ hshort _ rfl
        refine ⟨(c :: cs.takeWhile isSlugChar) :: ws, ?_⟩
        rw [hsplit]
        refine .word (cons_ne_nil _ _) (forall_mem_cons.2 ⟨hc, fun d => mem_takeWhile_imp⟩) ?_ hws
        intro d hd
        have hstop := head?_dropWhile_not isSlugChar cs
        rw [Option.mem_def.1 hd] at hstop
        exact hstop
      · obtain ⟨ws, hws⟩ := ih cs.length (by rw [← hlen]; exact Nat.lt_succ_self _) cs rfl
        exact ⟨ws, .skip (Bool.eq_false_iff.2 hc) hws⟩

/-- Every text is spelled by one list of words. -/
theorem spelledBy_iff : SpelledBy ws cs ↔ ws = wordsIn cs := by
  refine ⟨SpelledBy.eq_wordsIn, ?_⟩
  rintro rfl
  obtain ⟨ws, hws⟩ := exists_spelledBy cs
  exact hws.eq_wordsIn ▸ hws

theorem SpelledBy.plain (h : SpelledBy ws cs) :
    ∀ w ∈ ws, w ≠ [] ∧ ∀ c ∈ w, isSlugChar c := by
  induction h with
  | nil => exact fun w hw => absurd hw not_mem_nil
  | skip _ _ ih => exact ih
  | word hne hw _ _ ih => exact forall_mem_cons.2 ⟨⟨hne, hw⟩, ih⟩

def SameWords (p q : String) : Prop :=
  ∃ ws, SpelledBy ws (lower p).toList ∧ SpelledBy ws (lower q).toList

theorem sameWords_iff {q : String} :
    SameWords p q ↔ wordsIn (lower p).toList = wordsIn (lower q).toList := by
  simp only [SameWords, spelledBy_iff, exists_eq_left]

instance (p q : String) : Decidable (SameWords p q) :=
  decidable_of_iff _ sameWords_iff.symm

/-- **Two names are shortened alike exactly if they have the same words.** -/
theorem slug_eq_iff {q : String} : slug p = slug q ↔ SameWords p q := by
  have hwords (name : String) : ∀ s ∈ (wordsIn (lower name).toList).map String.ofList,
      s ≠ "" ∧ '_' ∉ s.toList := by
    intro s hs
    obtain ⟨w, hw, rfl⟩ := mem_map.1 hs
    obtain ⟨hne, hplain⟩ := (spelledBy_iff.2 rfl).plain w hw
    refine ⟨fun hempty => hne ?_, fun hmem => ?_⟩
    · rw [← String.toList_ofList (l := w), hempty]
      rfl
    · rw [String.toList_ofList] at hmem
      exact absurd (hplain '_' hmem) (by decide)
  rw [sameWords_iff, slug_eq, slug_eq]
  constructor
  · intro h
    have hmap := join_inj '_' (hwords p) (hwords q) h
    exact map_injective_iff.2 (fun _ _ => String.ofList_injective) hmap
  · intro h
    rw [h]

theorem take_reverse_name (c : Catalog) (k : Collection) :
    (c.name k).toList.reverse.take 3 = k.word.toList.reverse.take 3 := by
  rw [Catalog.name, String.toList_append, reverse_append]
  cases k <;> rfl

/-- The kinds of collections do not get in each other's way, whatever comes before them. -/
theorem Catalog.name_eq_iff {c d : Catalog} {k l : Collection} :
    c.name k = d.name l ↔ c.start = d.start ∧ k = l := by
  constructor
  · intro h
    have hkind : k = l := by
      have hends := take_reverse_name c k
      rw [h, take_reverse_name] at hends
      revert hends
      cases k <;> cases l <;> decide
    subst hkind
    refine ⟨?_, rfl⟩
    rw [Catalog.name, Catalog.name, ← String.toList_inj, String.toList_append, String.toList_append,
      String.toList_append, String.toList_append, append_left_inj, append_left_inj] at h
    exact String.toList_inj.1 h
  · rintro ⟨hstart, rfl⟩
    rw [Catalog.name, hstart, Catalog.name]

theorem start_ofSettings {s : StoreSettings} (hs : s.collectionPrefix = "hammy") (hp : p ≠ "") :
    (Catalog.ofSettings s p).start = "hammy_" ++ slug p := by
  rw [Catalog.ofSettings, hs, if_pos]
  simpa using hp

/-- **Two projects have no collection in common, or all of them.** With the usual start of names,
the collections of two projects are disjoint exactly if their names differ in some word, case
ignored; else they are the same. -/
theorem collections_disjoint_iff {s t : StoreSettings} (hs : s.collectionPrefix = "hammy")
    (ht : t.collectionPrefix = "hammy") {p q : String} (hp : p ≠ "") (hq : q ≠ "") :
    ((∀ k l, (Catalog.ofSettings s p).name k ≠ (Catalog.ofSettings t q).name l) ↔ ¬ SameWords p q) ∧
      ((∀ k, (Catalog.ofSettings s p).name k = (Catalog.ofSettings t q).name k) ↔
        SameWords p q) := by
  have hstart :
      (Catalog.ofSettings s p).start = (Catalog.ofSettings t q).start ↔ SameWords p q := by
    rw [start_ofSettings hs hp, start_ofSettings ht hq, ← slug_eq_iff, ← String.toList_inj,
      String.toList_append, String.toList_append, append_right_inj, String.toList_inj]
  constructor
  · constructor
    · intro hdisjoint hsame
      exact hdisjoint .symbols .symbols (Catalog.name_eq_iff.2 ⟨hstart.2 hsame, rfl⟩)
    · intro hdiffer k l heq
      exact hdiffer (hstart.1 (Catalog.name_eq_iff.1 heq).1)
  · constructor
    · intro hall
      exact hstart.1 (Catalog.name_eq_iff.1 (hall .symbols)).1
    · intro hsame k
      exact Catalog.name_eq_iff.2 ⟨hstart.2 hsame, rfl⟩

theorem collections_disjoint_iff_panel :
    ({} : StoreSettings).collectionPrefix = "hammy" ∧ "admin-panel" ≠ "Admin Panel" ∧
      (∀ k, (Catalog.ofSettings {} "admin-panel").name k =
        (Catalog.ofSettings {} "Admin Panel").name k) ∧
      ∀ k l, (Catalog.ofSettings {} "admin-panel").name k ≠
        (Catalog.ofSettings {} "storefront").name l := by
  refine ⟨rfl, by decide, ?_, ?_⟩
  · exact (collections_disjoint_iff rfl rfl (by decide) (by decide)).2.2 (by decide +kernel)
  · exact (collections_disjoint_iff rfl rfl (by decide) (by decide)).1.2 (by decide +kernel)

end Vector

end CodeAtlas
