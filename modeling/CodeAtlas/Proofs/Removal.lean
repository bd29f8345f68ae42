import Mathlib.Data.List.Sort
import CodeAtlas.Proofs.WalkOrder

/-!
# Projects without one of their files

A file is taken out of a project. Paths still lead where they led, unless the file was on their way
(`Removed.of_entry?`), so a walk finds the other files in the order in which it found them, but for
links to the file (`Removed.stops_eq`).
-/

namespace CodeAtlas

open List

namespace Entry

theorem Tidy.not_up {e c : Entry} (htidy : e.Tidy) {q : List String} (hc : e.at? q = some c) :
    ".." ∉ q := by
  intro hup
  obtain ⟨a, b, rfl⟩ := append_of_mem hup
  obtain ⟨children, ha⟩ := exists_dir_of_append hc (.inr (cons_ne_nil ".." b))
  rw [at?_append, ha, Option.bind_some] at hc
  obtain ⟨d, hd, -⟩ := Option.bind_eq_some_iff.1 hc
  exact ((htidy ha).2 _ (mem_of_lookup hd)).2 rfl

theorem foundIn_iff {e : Entry} (htidy : e.Tidy) {names : List String} :
    FoundIn e names ↔ names ≠ [] ∧ ∃ c, e.at? names = some c ∧ c.isDir = false := by
  constructor
  · intro h
    clear htidy
    induction h with
    | here _ hc hnoDir => exact ⟨cons_ne_nil _ _, _, by simp [at?, child?, hc], hnoDir⟩
    | deeper _ hc _ ih =>
      obtain ⟨-, d, hd, hnoDir⟩ := ih
      exact ⟨cons_ne_nil _ _, d, by simp [at?, child?, hc, hd], hnoDir⟩
  · rintro ⟨hne, c, hc, hnoDir⟩
    induction names generalizing e with
    | nil => exact absurd rfl hne
    | cons name names ih =>
      obtain ⟨d, hd, hat⟩ := Option.bind_eq_some_iff.1 hc
      cases e with
      | file => cases hd
      | link => cases hd
      | closed => cases hd
      | dir children =>
        have hname := (htidy (q := []) rfl).2 _ (mem_of_lookup hd)
        by_cases hnames : names = []
        · subst hnames
          exact .here hname hd (Option.some.inj hat ▸ hnoDir)
        · exact .deeper hname hd (ih (htidy.child (mem_of_lookup hd)) hnames hat)

end Entry

namespace Files

variable {files files' : Files} {fresh : Bool} {n : Nat} {place q d : List String} {name : String}
  {p : Path}

theorem follow?_append (hup : ".." ∉ q) {children : List (String × Entry)}
    (hat : files.root.at? (place.reverse ++ q) = some (.dir children)) (more : List String) :
    files.follow? fresh n place (q ++ more) = files.follow? fresh n (q.reverse ++ place) more := by
  induction q generalizing place with
  | nil => rfl
  | cons name q ih =>
    rw [mem_cons, not_or] at hup
    rw [append_cons] at hat
    obtain ⟨_, hname⟩ := Entry.exists_dir_of_append hat (.inl rfl)
    rw [cons_append, follow?_cons, if_neg (by simpa using Ne.symm hup.1), hname]
    dsimp only
    rw [ih hup.2 (by rwa [reverse_cons]), reverse_cons, append_assoc, singleton_append]

theorem realPlace_of_dir (hup : ".." ∉ q) {children : List (String × Entry)}
    (hat : files.root.at? (place.reverse ++ q) = some (.dir children)) :
    files.realPlace n place q = q.reverse ++ place := by
  induction q generalizing place with
  | nil => cases n <;> rfl
  | cons name q ih =>
    rw [mem_cons, not_or] at hup
    rw [append_cons] at hat
    obtain ⟨_, hname⟩ := Entry.exists_dir_of_append hat (.inl rfl)
    have hstep : files.realPlace n place (name :: q) = files.realPlace n (name :: place) q := by
      cases n <;> simp [realPlace, realNames, Ne.symm hup.1, hname]
    rw [hstep, ih hup.2 (by rwa [reverse_cons]), reverse_cons, append_assoc, singleton_append]

theorem resolve_of_dir (hup : ".." ∉ d) {children : List (String × Entry)}
    (hd : files.root.at? d = some (.dir children)) : files.resolve ⟨true, d⟩ = ⟨true, d⟩ := by
  rw [resolve, realPlace_of_dir hup hd, append_nil, reverse_reverse]

theorem entry?_of_dir (hup : ".." ∉ d) {children : List (String × Entry)}
    (hd : files.root.at? d = some (.dir children)) :
    files.entry? ⟨true, d⟩ = some (.dir children) := by
  have hplace : files.place? ⟨true, d⟩ = some d.reverse := by
    rw [place?, ← append_nil d, follow?_append hup (by simpa using hd), follow?_nil]
    simp
  rw [ entry?, hplace, Option.bind_some, reverse_reverse, hd]

/-- In a directory a name leads to what stands there, unless that is a link. -/
theorem entry?_of_child (hup : ".." ∉ d ++ [name]) {children : List (String × Entry)}
    (hd : files.root.at? d = some (.dir children))
    (hlink : ∀ target, files.root.at? (d ++ [name]) ≠ some (.link target)) :
    files.entry? ⟨true, d ++ [name]⟩ = files.root.at? (d ++ [name]) := by
  rw [mem_append, not_or, mem_singleton] at hup
  have hplace : files.place? ⟨true, d ++ [name]⟩ =
      if (files.root.at? (d ++ [name])).isSome then some (name :: d.reverse) else none := by
    rw [place?, follow?_append hup.1 hd, append_nil, follow?_cons,
      if_neg (by simpa using Ne.symm hup.2), reverse_reverse]
    cases hat : files.root.at? (d ++ [name]) with
    | none => rfl
    | some c =>
      cases c with
      | link target => exact absurd hat (hlink target)
      | dir => exact follow?_nil
      | _ => rfl
  rw [ entry?, hplace]
  cases hat : files.root.at? (d ++ [name]) with
  | none => rfl
  | some c => simpa using hat

end Files

open Files

theorem Before.asymm {as bs : List String} (h : Before as bs) : ¬ Before bs as := by
  intro h'
  induction h with
  | files h =>
    cases h' with
    | files h' => exact String.lt_asymm h h'
    | within h' => cases h'
  | filesFirst =>
    cases h' with
    | within h' => cases h'
  | dirs h =>
    cases h' with
    | dirs h' => exact String.lt_asymm h h'
    | within => exact String.lt_irrefl _ h
  | within h ih =>
    cases h' with
    | files h' => exact String.lt_irrefl _ h'
    | filesFirst => cases h
    | dirs h' => exact String.lt_irrefl _ h'
    | within h' => exact ih h'

/-- What is listed in the order of a walk is known by its members. -/
theorem eq_of_pairwise_before {xs ys : List FileEntry}
    (hxs : xs.Pairwise fun x y => Before x.path.parts y.path.parts)
    (hys : ys.Pairwise fun x y => Before x.path.parts y.path.parts) (h : ∀ x, x ∈ xs ↔ x ∈ ys) :
    xs = ys := by
  let before (x y : FileEntry) : Prop := Before x.path.parts y.path.parts
  have : Std.Antisymm before := ⟨fun _ _ h h' => absurd h' h.asymm⟩
  have : Std.Irrefl before := ⟨fun _ h => h.irrefl⟩
  exact hxs.eq_of_mem_iff (r := before) hys h

variable {w : WalkFilter} {files files' : Files} {d gone q : List String} {p : Path}
  {children l l' : List (String × Entry)} {x y : FileEntry} {entries : List FileEntry} {c : Entry}

section Directory

variable (htidy : files.root.Tidy) (hdir : files.root.at? d = some (.dir children))

include htidy hdir

theorem foundIn_dir_iff {names : List String} : FoundIn (.dir children) names ↔
    names ≠ [] ∧ ∃ c, files.root.at? (d ++ names) = some c ∧ c.isDir = false := by
  rw [Entry.foundIn_iff (htidy.at? hdir), Entry.at?_append, hdir, Option.bind_some]

theorem mem_walkProject_of_dir : y ∈ walkProject w files ⟨true, d⟩ ↔
    ∃ names, FoundIn (.dir children) names ∧ w.Enters files ⟨true, d⟩ names ∧
      w.file? files ⟨true, d ++ names⟩ = some y := by
  have hup := htidy.not_up hdir
  rw [mem_walkProject_iff htidy, resolve_of_dir hup hdir, entry?_of_dir hup hdir]
  simp only [Option.some.injEq, exists_and_left, exists_eq_left']

theorem exists_error_stops_of_dir : (∃ f, .error f ∈ stops w files ⟨true, d⟩) ↔
    ∃ names, FoundIn (.dir children) names ∧ w.Enters files ⟨true, d⟩ names ∧
      w.rules.Baffled files ⟨true, d ++ names⟩ := by
  have hup := htidy.not_up hdir
  rw [exists_error_stops_iff htidy, resolve_of_dir hup hdir, entry?_of_dir hup hdir]
  simp only [Option.some.injEq, exists_and_left, exists_eq_left']

end Directory

theorem enters_congr (files files' : Files) {names : List String} :
    w.Enters files' ⟨true, d⟩ names ↔ w.Enters files ⟨true, d⟩ names := by
  simp only [WalkFilter.Enters, Ignore.Rules.ignores, Bool.true_or]

/-! ## Taking a file out

A link that led to the file leads nowhere afterwards, and only a link can be lost with it. -/

/-- There are the same directories, and the same files and links but for one. -/
structure Removed (files : Files) (gone : List String) (files' : Files) : Prop where
  dirs : ∀ q, (∃ l, files'.root.at? q = some (.dir l)) ↔ ∃ l, files.root.at? q = some (.dir l)
  others : ∀ q c, c.isDir = false →
    (files'.root.at? q = some c ↔ files.root.at? q = some c ∧ q ≠ gone)

namespace Removed

variable (h : Removed files gone files')

include h

theorem of_at? {c' : Entry} (hat : files'.root.at? q = some c') :
    files.root.at? q = some c' ∨ ∃ l l', c' = .dir l' ∧ files.root.at? q = some (.dir l) := by
  cases c' with
  | dir l' =>
    obtain ⟨l, hl⟩ := (h.dirs q).1 ⟨l', hat⟩
    exact .inr ⟨l, l', rfl, hl⟩
  | _ => exact .inl ((h.others q _ rfl).1 hat).1

theorem eq_gone (hat : files.root.at? q = some c) (hat' : files'.root.at? q = none) : q = gone := by
  by_contra hq
  cases c with
  | dir l =>
    obtain ⟨_, hl⟩ := (h.dirs q).2 ⟨l, hat⟩
    cases hat'.symm.trans hl
  | _ => cases hat'.symm.trans ((h.others q _ rfl).2 ⟨hat, hq⟩)

/-- What a path still leads to is what it led to. -/
theorem of_entry? {c' : Entry} (hc' : files'.entry? p = some c') :
    files.entry? p = some c' ∨ ∃ l l', c' = .dir l' ∧ files.entry? p = some (.dir l) := by
  have hkeeps : Keeps files' files := by
    intro q c _ hat
    obtain hc | ⟨l, l', rfl, hl⟩ := h.of_at? hat
    · exact ⟨c, hc, .rfl⟩
    · exact ⟨_, hl, trivial⟩
  obtain ⟨r, hleads, hat⟩ := entry?_eq_some_iff.1 hc'
  have hleads := hleads.of_keeps hkeeps fun hfresh => absurd hfresh Bool.false_ne_true
  exact (h.of_at? hat).imp (fun hc => entry?_eq_some_iff.2 ⟨r, hleads, hc⟩)
    fun ⟨l, l', hc, hl⟩ => ⟨l, l', hc, entry?_eq_some_iff.2 ⟨r, hleads, hl⟩⟩

theorem file?_eq (hholds : files'.holds p) : w.file? files' p = w.file? files p := by
  obtain ⟨c', hc'⟩ := Option.isSome_iff_exists.1 hholds
  obtain hc | ⟨_, _, rfl, hc⟩ := h.of_entry? hc'
  · simp only [WalkFilter.file?, Ignore.Rules.ignores, isDir, size?, hc, hc']
  · rw [file?_of_size?_eq_none (by rw [size?, hc']; rfl),
      file?_of_size?_eq_none (by rw [size?, hc]; rfl)]

theorem content?_eq (hholds : files'.holds p) : files'.content? p = files.content? p := by
  obtain ⟨c', hc'⟩ := Option.isSome_iff_exists.1 hholds
  rw [content?, content?, hc']
  obtain hc | ⟨_, _, rfl, hc⟩ := h.of_entry? hc' <;> rw [hc]

/-- What could be looked at can be looked at: the name that is missing now is not too long. -/
theorem refusal?_eq_none (hshort : ∀ name ∈ gone, name.utf8ByteSize ≤ longestName) {n : Nat}
    {place : List String} (hnone : files.refusal? p n place q = none) :
    files'.refusal? p n place q = none := by
  induction n using Nat.strongRecOn generalizing place q with
  | _ n ihn =>
    induction q generalizing place with
    | nil => exact refusal?_nil
    | cons name rest ih =>
      rw [refusal?_cons] at hnone ⊢
      split
      · next hname => exact ih (by rwa [if_pos hname] at hnone)
      · next hname =>
        rw [if_neg hname] at hnone
        cases hat' : files'.root.at? (place.reverse ++ [name]) with
        | none =>
          cases hat : files.root.at? (place.reverse ++ [name]) with
          | none => simpa [hat] using hnone
          | some c =>
            have hgone := h.eq_gone hat hat'
            exact if_neg (Nat.not_lt.2 (hshort name (by simp [← hgone])))
        | some c' =>
          obtain hc | ⟨_, _, rfl, hc⟩ := h.of_at? hat'
          · rw [hc] at hnone
            cases c' with
            | file => rfl
            | dir => exact ih hnone
            | link target =>
              cases n with
              | zero => rfl
              | succ n => exact ihn n n.lt_succ_self hnone
            | closed kind => cases kind <;> first | rfl | cases hnone
          · rw [hc] at hnone
            exact ih hnone

variable (htidy : files.root.Tidy)

include htidy

/-- What is taken out is not there any more. All else is there that is no link. -/
theorem holds_eq (hat : files.root.at? q = some c) (hc : c.isDir = false) (hq : q ≠ [])
    (hlink : q ≠ gone → ∀ target, c ≠ .link target) :
    files'.holds ⟨true, q⟩ = decide (q ≠ gone) := by
  obtain ⟨top, name, rfl⟩ := (eq_nil_or_concat q).resolve_left hq
  rw [concat_eq_append] at hat hlink ⊢
  obtain ⟨l, htop⟩ := Entry.exists_dir_of_append hat (.inr (cons_ne_nil name []))
  obtain ⟨l', htop'⟩ := (h.dirs top).2 ⟨l, htop⟩
  rw [holds, entry?_of_child (htidy.not_up hat) htop']
  · by_cases heq : top ++ [name] = gone
    · rw [decide_eq_false (not_not.2 heq), Option.isSome_eq_false_iff, Option.isNone_iff_eq_none]
      by_contra hsome
      obtain ⟨c', hc'⟩ := Option.ne_none_iff_exists'.1 hsome
      obtain hat' | ⟨_, _, -, hdir⟩ := h.of_at? hc'
      · obtain rfl := Option.some.inj (hat.symm.trans hat')
        exact ((h.others _ _ hc).1 hc').2 heq
      · obtain rfl := Option.some.inj (hat.symm.trans hdir)
        cases hc
    · rw [(h.others _ _ hc).2 ⟨hat, heq⟩, decide_eq_true heq, Option.isSome_some]
  · intro target htarget
    obtain ⟨hat', hne⟩ := (h.others _ _ rfl).1 htarget
    exact hlink hne target (Option.some.inj (hat.symm.trans hat'))

variable (hdir : files.root.at? d = some (.dir l)) (hdir' : files'.root.at? d = some (.dir l'))
  (htidy' : files'.root.Tidy)

include hdir hdir' htidy'

theorem foundIn_iff {names : List String} :
    FoundIn (.dir l') names ↔ FoundIn (.dir l) names ∧ d ++ names ≠ gone := by
  rw [foundIn_dir_iff htidy' hdir', foundIn_dir_iff htidy hdir, and_assoc, ← exists_and_right]
  refine and_congr_right fun _ => exists_congr fun c => ?_
  rw [and_right_comm]
  exact and_congr_left fun hc => h.others _ c hc

theorem walkProject_eq : walkProject w files' ⟨true, d⟩ =
    (walkProject w files ⟨true, d⟩).filter fun y => files'.holds y.path := by
  refine eq_of_pairwise_before (pairwise_before_walkProject htidy' _)
    ((pairwise_before_walkProject htidy _).sublist filter_sublist) fun y => ?_
  rw [mem_filter, mem_walkProject_of_dir htidy' hdir', mem_walkProject_of_dir htidy hdir]
  simp only [h.foundIn_iff htidy hdir hdir' htidy', enters_congr files]
  constructor
  · rintro ⟨names, ⟨hnames, -⟩, hentered, hfile⟩
    obtain ⟨hpath, -, hsize, -⟩ := file?_eq_some hfile
    obtain ⟨c, hc, -⟩ := Option.bind_eq_some_iff.1 hsize
    have hholds : files'.holds ⟨true, d ++ names⟩ := by
      rw [holds, hc, Option.isSome_some]
    rw [h.file?_eq hholds] at hfile
    exact ⟨⟨names, hnames, hentered, hfile⟩, hpath ▸ hholds⟩
  · rintro ⟨⟨names, hnames, hentered, hfile⟩, hholds⟩
    rw [(file?_eq_some hfile).1] at hholds
    refine ⟨names, ⟨hnames, ?_⟩, hentered, by rw [h.file?_eq hholds, hfile]⟩
    rintro rfl
    obtain ⟨hne, c, hc, hnoDir⟩ := (foundIn_dir_iff htidy hdir).1 hnames
    rw [h.holds_eq htidy hc hnoDir (by simp [hne]) (absurd rfl)] at hholds
    simp at hholds

theorem stops_eq (hshort : ∀ n ∈ gone, n.utf8ByteSize ≤ longestName)
    (hstops : stops w files ⟨true, d⟩ = entries.map .ok) :
    stops w files' ⟨true, d⟩ = (entries.filter fun y => files'.holds y.path).map .ok := by
  cases hwalk : walk w files' ⟨true, d⟩ with
  | ok found =>
    rw [walk_eq_ok_iff.1 hwalk, eq_walkProject_of_walk hwalk,
      eq_walkProject_of_walk (walk_eq_ok_iff.2 hstops), h.walkProject_eq htidy hdir hdir' htidy']
  | error f =>
    -- what cannot be looked at now could not be looked at before
    obtain ⟨names, hnames, hentered, habsolute, hrelative, hfault⟩ :=
      (exists_error_stops_of_dir htidy' hdir').1 (exists_error_walk_iff.1 ⟨f, hwalk⟩)
    have hfault' : (files.fault? ⟨true, d ++ names⟩).isSome := by
      rw [← Option.ne_none_iff_isSome] at hfault ⊢
      exact fun hnone => hfault (h.refusal?_eq_none hshort hnone)
    have hnames := (h.foundIn_iff htidy hdir hdir' htidy').1 hnames
    obtain ⟨f, hf⟩ := (exists_error_stops_of_dir htidy hdir).2
      ⟨names, hnames.1, (enters_congr files _).1 hentered, habsolute, hrelative, hfault'⟩
    simp [hstops] at hf

end Removed

/-- Besides the file only links are lost. -/
theorem Removed.exists_link_of_lost (h : Removed files x.path.parts files')
    (htidy : files.root.Tidy) (hdir : files.root.at? d = some (.dir l))
    (hx : x ∈ walkProject w files ⟨true, d⟩) (hy : y ∈ walkProject w files ⟨true, d⟩) (hyx : y ≠ x)
    (hlost : files'.holds y.path = false) :
    ∃ target, files.root.at? y.path.parts = some (.link target) := by
  obtain ⟨gone, -, -, hfile⟩ := (mem_walkProject_of_dir htidy hdir).1 hx
  obtain ⟨names, hnames, -, hfile'⟩ := (mem_walkProject_of_dir htidy hdir).1 hy
  obtain ⟨hne, c, hc, hnoDir⟩ := (foundIn_dir_iff htidy hdir).1 hnames
  rw [(file?_eq_some hfile').1] at hlost ⊢
  rw [(file?_eq_some hfile).1] at h
  by_contra hlink
  rw [h.holds_eq htidy hc hnoDir (by simp [hne]) fun _ target htarget =>
    hlink ⟨target, htarget ▸ hc⟩, decide_eq_false_iff_not, not_not] at hlost
  rw [hlost, hfile] at hfile'
  exact hyx (Option.some.inj hfile').symm

end CodeAtlas
