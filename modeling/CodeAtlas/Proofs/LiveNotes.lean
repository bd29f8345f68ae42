import CodeAtlas.Proofs.Memory

/-!
# Live notes that are not found

The store cuts to a limit before it is asked which notes have expired. A listing looks at two
hundred notes and a search at as many as it may give, and what has expired among these takes the
places of live notes that come after them.
-/

namespace CodeAtlas.Vector

open List

variable {c : Catalog} {s : Store} {now : Moment} {tag : String} {p : Point}

def tagged (c : Catalog) (tag : String) (s : Store) : List Point :=
  meeting (Catalog.tagConditions tag) (s.points (c.name .memory))

def isLive (now : Moment) (p : Point) : Bool :=
  (isExpired now p.payload).toOption == some false

/-- It can be told whether a note has expired, and its dates are texts. -/
structure Readable (now : Moment) (p : Point) : Prop where
  expiry : ∃ expired, isExpired now p.payload = .ok expired
  date : ∃ date, Catalog.listingDate p.payload = .str date

theorem Readable.isExpired_eq (h : Readable now p) :
    isExpired now p.payload = .ok (!isLive now p) := by
  obtain ⟨expired, hexpired⟩ := h.expiry
  rw [isLive, hexpired]
  cases expired <;> rfl

theorem exists_mapM_dated {entries : List Payload} (h : ∀ e ∈ entries, ∃ d,
    Catalog.listingDate e = .str d) :
    ∃ found, entries.mapM Catalog.dated = .ok found ∧ found.map (·.2) = entries := by
  induction entries with
  | nil => exact ⟨[], rfl, rfl⟩
  | cons e entries ih =>
    obtain ⟨d, hd⟩ := h e mem_cons_self
    have hdated : Catalog.dated e = .ok (d, e) := by rw [Catalog.dated, hd]
    obtain ⟨found, hfound, hsame⟩ := ih fun e' he' => h e' (mem_cons_of_mem e he')
    refine ⟨(d, e) :: found, ?_, by rw [map_cons, hsame]⟩
    rw [mapM_cons, hdated, hfound]
    rfl

theorem latestFirst_perm {entries : List Payload} (h : ∀ e ∈ entries, ∃ d,
    Catalog.listingDate e = .str d) :
    ∃ sorted, Catalog.latestFirst entries = .ok sorted ∧ sorted.Perm entries := by
  unfold Catalog.latestFirst
  split
  · exact ⟨[], rfl, .refl _⟩
  · next e => exact ⟨[e], rfl, .refl _⟩
  · obtain ⟨found, hfound, hsame⟩ := exists_mapM_dated h
    refine ⟨_, by rw [hfound]; rfl, ?_⟩
    have hperm := (mergeSort_perm found fun a b => !(a.1 < b.1)).map (·.2)
    rwa [hsame] at hperm

/-- A listing finds those that live among the first 200 notes with the tag. -/
theorem run_listNotes (hs : s.Willing) (h : ∀ p ∈ tagged c tag s, Readable now p) :
    ∃ entries s', (c.listNotes now tag).run.run s = (.ok entries, s') ∧
      entries.Perm ((((tagged c tag s).take 200).filter (isLive now)).map (·.payload)) := by
  have hscroll : (scroll (c.name .memory) (Catalog.tagConditions tag) Catalog.mostNotes).run.run s =
      (.ok ((tagged c tag s).take 200), { s with made := s.made ++ [.scroll] }) :=
    hs.run_scroll (c.name .memory) (Catalog.tagConditions tag) Catalog.mostNotes
  have hlive : unexpired now Point.payload ((tagged c tag s).take 200) =
      .ok (((tagged c tag s).take 200).filter (isLive now)) :=
    Memory.unexpired_eq_filter fun p hp => (h p (mem_of_mem_take hp)).isExpired_eq
  have hdates : ∀ e ∈ (((tagged c tag s).take 200).filter (isLive now)).map (·.payload),
      ∃ d, Catalog.listingDate e = .str d := by
    intro e he
    obtain ⟨p, hp, rfl⟩ := mem_map.1 he
    exact (h p (mem_of_mem_take (mem_of_mem_filter hp))).date
  obtain ⟨sorted, hsorted, hperm⟩ := latestFirst_perm hdates
  refine ⟨sorted, { s with made := s.made ++ [.scroll] }, ?_, hperm⟩
  rw [Catalog.listNotes, run_bind_ok hscroll, hlive, run_bind_ok (run_except _ _)]
  exact congrArg (·, _) hsorted

/-- The notes with a tag, in the order in which they fit a question. -/
def rankedNotes (c : Catalog) (question tag : String) (s : Store) : List Point :=
  (s.rank (s.vectorOf question) (tagged c tag s)).map (·.point)

/-- A search finds those that live among the notes with the tag that fit best. -/
theorem run_recallMeaning (hs : s.Willing) (hrank : s.RanksAll)
    (h : ∀ p ∈ tagged c tag s, Readable now p)
    {question : String} (hquestion : question ≠ "") {limit : Int} (hlimit : 0 ≤ limit) :
    ∃ entries s', (c.recallNotes now question "" tag limit).run.run s = (.ok entries, s') ∧
      entries.length = ((rankedNotes c question tag s).take limit.toNat).countP (isLive now) := by
  let hits : List Hit := (s.rank (s.vectorOf question) (tagged c tag s)).take limit.toNat
  have hpoints : hits.map (·.point) = (rankedNotes c question tag s).take limit.toNat := map_take
  have hquery :
      (query (c.name .memory) (s.vectorOf question) (Catalog.tagConditions tag) limit).run.run s =
      (.ok hits, { s with made := s.made ++ [.query] }) := by
    rw [hs.run_query, leading, if_pos hlimit]
    rfl
  have hlive :
      unexpired now (·.point.payload) hits = .ok (hits.filter fun x => isLive now x.point) := by
    refine Memory.unexpired_eq_filter fun x hx => ?_
    have hmem : x.point ∈ (rankedNotes c question tag s).take limit.toNat :=
      hpoints ▸ mem_map_of_mem hx
    exact (h x.point ((hrank _ _).subset (mem_of_mem_take hmem))).isExpired_eq
  refine ⟨(hits.filter fun x => isLive now x.point).map Hit.shown,
    { s with made := s.made ++ [.query] }, ?_, ?_⟩
  · rw [Catalog.recallNotes, if_pos (show "".isEmpty = true from rfl), Catalog.recallMeaning,
      if_neg (by simpa using hquestion), run_bind_ok (run_get s), run_bind_ok hquery, hlive,
      run_bind_ok (run_except _ _)]
    rfl
  · rw [length_map, ← countP_eq_length_filter, ← hpoints, countP_map]
    rfl

section Cutting

variable {α : Type} (live : α → Bool) (n : Nat) (xs : List α)

theorem countP_take_eq_min_iff : (xs.take n).countP live = min n (xs.countP live) ↔
    (∀ x ∈ xs.take n, live x) ∨ ∀ x ∈ xs.drop n, live x = false := by
  have hall : (∀ x ∈ xs.take n, live x) ↔ (xs.take n).countP live = min n xs.length := by
    rw [← length_take, countP_eq_length]
  have hnone : (∀ x ∈ xs.drop n, live x = false) ↔ (xs.drop n).countP live = 0 := by
    simp only [countP_eq_zero, Bool.not_eq_true]
  have htotal : xs.countP live = (xs.take n).countP live + (xs.drop n).countP live := by
    rw [← countP_append, take_append_drop]
  have hfirst : (xs.take n).countP live ≤ (xs.take n).length := countP_le_length
  have hrest : (xs.drop n).countP live ≤ (xs.drop n).length := countP_le_length
  rw [length_take] at hfirst
  rw [length_drop] at hrest
  rw [hall, hnone, htotal]
  omega

theorem perm_filter_take_iff {β : Type} (f : α → β) {ys : List β}
    (h : ys.Perm (((xs.take n).filter live).map f)) :
    ys.Perm ((xs.filter live).map f) ↔ ∀ x ∈ xs.drop n, live x = false := by
  have hsplit : (xs.filter live).map f = ((xs.take n).filter live).map f ++
      ((xs.drop n).filter live).map f := by
    rw [← map_append, ← filter_append, take_append_drop]
  rw [hsplit]
  constructor
  · intro hall
    have hlength := h.length_eq.symm.trans hall.length_eq
    simp only [length_append, length_map] at hlength
    have hnil : (xs.drop n).filter live = [] := length_eq_zero_iff.1 (by omega)
    intro x hx
    simpa using filter_eq_nil_iff.1 hnil x hx
  · intro hnone
    have hnil : (xs.drop n).filter live = [] := filter_eq_nil_iff.2 fun x hx => by simp [hnone x hx]
    rwa [hnil, map_nil, append_nil]

end Cutting

/-- **When live notes are found.** Take any notes with readable dates, any time, and a store that
refuses nothing and whose ranking loses no point. A listing gives the live ones among the first two
hundred notes with its tag; these are all the live ones with the tag if and only if none comes
later. A search gives the live ones among as many of the notes that fit best as it may give; these
are as many as there are, up to its limit, if and only if none of these notes has expired or no live
one is ranked behind them. -/
theorem live_notes_found_iff (hs : s.Willing) (hrank : s.RanksAll)
    (h : ∀ p ∈ tagged c tag s, Readable now p)
    {question : String} (hquestion : question ≠ "") {limit : Int} (hlimit : 0 ≤ limit) :
    (∃ entries s', (c.listNotes now tag).run.run s = (.ok entries, s') ∧
      entries.Perm ((((tagged c tag s).take 200).filter (isLive now)).map (·.payload)) ∧
      (entries.Perm (((tagged c tag s).filter (isLive now)).map (·.payload)) ↔
        ∀ p ∈ (tagged c tag s).drop 200, isLive now p = false)) ∧
    ∃ entries s', (c.recallNotes now question "" tag limit).run.run s = (.ok entries, s') ∧
      entries.length = ((rankedNotes c question tag s).take limit.toNat).countP (isLive now) ∧
      (entries.length = min limit.toNat ((tagged c tag s).countP (isLive now)) ↔
        (∀ p ∈ (rankedNotes c question tag s).take limit.toNat, isLive now p = true) ∨
          ∀ p ∈ (rankedNotes c question tag s).drop limit.toNat, isLive now p = false) := by
  constructor
  · obtain ⟨entries, s', hrun, hperm⟩ := run_listNotes hs h
    exact ⟨entries, s', hrun, hperm, perm_filter_take_iff _ _ _ _ hperm⟩
  · obtain ⟨entries, s', hrun, hlength⟩ := run_recallMeaning hs hrank h hquestion hlimit
    have hperm : (rankedNotes c question tag s).Perm (tagged c tag s) := hrank _ _
    refine ⟨entries, s', hrun, hlength, ?_⟩
    rw [hlength, ← hperm.countP_eq]
    exact countP_take_eq_min_iff _ _ _

def oldAndNew : List Point :=
  [⟨1, .null, [("key", .str "plan")]⟩,
    ⟨2, .null, [("key", .str "old"), ("expires_at", .str "2024-01-02T00:00:00+00:00")]⟩]

/-- The note that was written last fits best. -/
def latestFitsBest : Store where
  collections := .ofList [("hammy_brain", oldAndNew)]
  vectorOf _ := []
  rank _ points := points.reverse.map (⟨·, .null⟩)

theorem ranksAll_latestFitsBest : latestFitsBest.RanksAll := by
  intro asked points
  simp [latestFitsBest, map_map, Function.comp_def]

/-- A search that may give one note looks at the one that fits best, which expired, and finds
nothing. -/
theorem live_notes_found_iff_expired :
    let now := (Memory.hours 17733324).moment
    (tagged ⟨"hammy"⟩ "" latestFitsBest).countP (isLive now) = 1 ∧
      ∃ s', (Catalog.recallNotes ⟨"hammy"⟩ now "plan" "" "" 1).run.run latestFitsBest =
        (.ok [], s') := by
  intro now
  have hpoints : tagged ⟨"hammy"⟩ "" latestFitsBest = oldAndNew := by
    have hsorted : oldAndNew.mergeSort (fun p q => p.id ≤ q.id) = oldAndNew :=
      mergeSort_of_pairwise (by simp [oldAndNew])
    show meeting [] (oldAndNew.mergeSort fun p q => p.id ≤ q.id) = _
    rw [hsorted]
    rfl
  have hread : ∀ p ∈ tagged ⟨"hammy"⟩ "" latestFitsBest, Readable now p := by
    rw [hpoints]
    intro p hp
    rcases mem_pair.1 hp with rfl | rfl
    · exact ⟨⟨false, rfl⟩, ⟨"", rfl⟩⟩
    · exact ⟨⟨true, rfl⟩, ⟨"", rfl⟩⟩
  obtain ⟨-, entries, s', hrun, hlength, -⟩ :=
    live_notes_found_iff (fun _ _ => rfl) ranksAll_latestFitsBest hread
    (show "plan" ≠ "" by decide) (show (0 : Int) ≤ 1 by decide)
  rw [rankedNotes, hpoints] at hlength
  have hnil : entries = [] := length_eq_zero_iff.1 hlength
  exact ⟨hpoints ▸ rfl, s', hnil ▸ hrun⟩

end CodeAtlas.Vector
