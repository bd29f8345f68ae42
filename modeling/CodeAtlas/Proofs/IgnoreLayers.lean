import CodeAtlas.Proofs.Pruning

/-!
# What layers of ignore patterns add up to

The layers of a project are read as one list of patterns, and of all patterns that match a path the
last one decides. So the last *layer* that says anything about a path decides, and what the layers
before it say on their own does not count.
-/

namespace CodeAtlas.Ignore

open List

/-! ## Layers of patterns

The last pattern that matches decides, so a layer is asked only where later ones say nothing. -/

/-- Whether the last pattern that matches takes back what was excluded. -/
def Rules.takesBack (r : Rules) (form : String) : Bool :=
  (r.patterns.reverse.find? (·.hits form)).any (·.restores)

/-- The last of some layers that has a pattern for a text. -/
def lastWord? (layers : List Rules) (form : String) : Option Rules :=
  layers.reverse.find? fun a => a.patterns.any (·.hits form)

variable {a b r : Rules} {layers before after : List Rules} {form : String}
  {patterns : List Pattern}

theorem hits_of_find? {p : Pattern} (h : patterns.reverse.find? (·.hits form) = some p) :
    patterns.any (·.hits form) := by
  have hhits := find?_some h
  exact any_eq_true.2 ⟨p, mem_reverse.1 (mem_of_find?_eq_some h), hhits⟩

theorem excludes_append (first second : List Pattern) (form : String) :
    excludes (first ++ second) form =
      if second.any (·.hits form) then excludes second form else excludes first form := by
  unfold excludes
  rw [reverse_append, find?_append]
  cases hfind : second.reverse.find? fun p => p.hits form with
  | some p =>
    rw [if_pos (hits_of_find? hfind)]
    rfl
  | none =>
    have hnone : second.any (·.hits form) = false :=
      any_eq_false.2 fun p hp => find?_eq_none.1 hfind p (mem_reverse.2 hp)
    rw [if_neg (Bool.eq_false_iff.1 hnone)]
    rfl

theorem lastWord?_cons (a : Rules) (layers : List Rules) (form : String) :
    lastWord? (a :: layers) form =
      (lastWord? layers form).or (if a.patterns.any (·.hits form) then some a else none) := by
  unfold lastWord?
  rw [reverse_cons, find?_append, find?_singleton]

theorem any_hits_eq_isSome_lastWord? (layers : List Rules) (form : String) :
    (layers.flatMap (·.patterns)).any (·.hits form) = (lastWord? layers form).isSome := by
  rw [lastWord?, isSome_find?, any_reverse, any_flatMap]

/-- **The last layer that has a pattern for a text decides.** -/
theorem excludes_flatMap (layers : List Rules) (form : String) :
    excludes (layers.flatMap (·.patterns)) form = (lastWord? layers form).any fun a => excludes
      a.patterns form := by
  induction layers with
  | nil => rfl
  | cons a layers ih =>
    rw [flatMap_cons, excludes_append, any_hits_eq_isSome_lastWord?, ih, lastWord?_cons]
    cases lastWord? layers form with
    | some b => rfl
    | none =>
      cases hhit : a.patterns.any (·.hits form) with
      | true => rfl
      | false =>
        -- no layer has a pattern for the text, so nothing excludes it
        have hnone : a.patterns.reverse.find? (·.hits form) = none := by
          rw [find?_eq_none]
          intro p hp
          exact any_eq_false.1 hhit p (mem_reverse.1 hp)
        show excludes a.patterns form = false
        rw [excludes, hnone]

theorem hits_of_excludes (h : excludes patterns form) : patterns.any (·.hits form) := by
  unfold excludes at h
  split at h
  · next p hp => exact hits_of_find? hp
  · cases h

theorem excludes_eq_not_takesBack (hhit : a.patterns.any (·.hits form)) :
    excludes a.patterns form = !a.takesBack form := by
  unfold excludes Rules.takesBack
  cases hfind : a.patterns.reverse.find? (·.hits form) with
  | some p => rfl
  | none =>
    obtain ⟨p, hp, hhits⟩ := any_eq_true.1 hhit
    exact absurd hhits (find?_eq_none.1 hfind p (mem_reverse.2 hp))

theorem excludes_of_lastWord? (h : lastWord? layers form = some a) :
    excludes a.patterns form = !a.takesBack form := by
  unfold lastWord? at h
  have hhit := find?_some h
  exact excludes_eq_not_takesBack hhit

theorem mem_of_lastWord? (h : lastWord? layers form = some a) : a ∈ layers := by
  unfold lastWord? at h
  exact mem_reverse.1 (mem_of_find?_eq_some h)

theorem exists_lastWord? (before after : List Rules) (hhit : a.patterns.any (·.hits form)) :
    ∃ b, lastWord? (before ++ a :: after) form = some b ∧ b ∈ a :: after := by
  have hlast : ∃ b, lastWord? (a :: after) form = some b := by
    rw [← Option.isSome_iff_exists, ← any_hits_eq_isSome_lastWord?, flatMap_cons, any_append, hhit,
      Bool.true_or]
  obtain ⟨b, hb⟩ := hlast
  refine ⟨b, ?_, mem_of_lastWord? hb⟩
  unfold lastWord? at hb ⊢
  rw [reverse_append, find?_append, hb]
  rfl

/-- The texts that stand for a path when patterns are matched: a directory has two, a path outside
of the project has none. -/
def formsOf (root : Path) (files : Files) (p : Path) (isDir : Bool) : List String :=
  let forms (rel : Path) (isDir : Bool) : List String :=
    matchedForm rel.toText :: if isDir then [matchedForm (rel.toText ++ "/")] else []
  if p.absolute then ((p.relativeTo? root).map fun rel => forms rel (isDir || files.isDir p)).getD
    []
  else forms p isDir

theorem ignores_eq_any (r : Rules) (files : Files) (p : Path) (isDir : Bool) :
    r.ignores files p isDir = (formsOf r.root files p isDir).any (excludes r.patterns) := by
  have hforms (rel : Path) (flag : Bool) : r.excludesRelative rel flag =
      (matchedForm rel.toText :: if flag then [matchedForm (rel.toText ++ "/")] else []).any
        (excludes r.patterns) := by
    rw [Rules.excludesRelative, any_cons]
    cases flag with
    | false => rfl
    | true => simp
  unfold Rules.ignores formsOf
  cases p.absolute with
  | false => exact hforms p isDir
  | true =>
    rw [if_pos rfl, if_pos rfl]
    cases p.relativeTo? r.root with
    | none => rfl
    | some rel => exact hforms rel _

def layerTexts (files : Files) (root : Path) (settings : IgnoreSettings) :
    Except Failure (List (List String)) := do
  let git ← layer files settings.useGitignore (root.child ".gitignore") patternLines
  let hg ← layer files settings.useHgignore (root.child ".hgignore") globLines
  let own ← layer files settings.useOwnIgnore (root.child ".hammyignore") patternLines
  return [defaults, git, hg, own, settings.extraPatterns]

def Rules.ofLines (root : Path) (lines : List String) : Except Flaw Rules :=
  (parseAll lines).map fun patterns => ⟨root, patterns⟩

theorem patternTexts_eq (files : Files) (root : Path) (settings : IgnoreSettings) :
    patternTexts files root settings = (layerTexts files root settings).map List.flatten := by
  unfold patternTexts layerTexts
  cases layer files settings.useGitignore (root.child ".gitignore") patternLines with
  | error f => rfl
  | ok git =>
    cases layer files settings.useHgignore (root.child ".hgignore") globLines with
    | error f => rfl
    | ok hg =>
      cases layer files settings.useOwnIgnore (root.child ".hammyignore") patternLines with
      | error f => rfl
      | ok own =>
        show Except.ok (defaults ++ git ++ hg ++ own ++ settings.extraPatterns) =
          Except.ok [defaults, git, hg, own, settings.extraPatterns].flatten
        simp only [flatten_cons, flatten_nil, append_assoc, append_nil]

theorem parseAll_eq_ok_iff {lines : List String} :
    parseAll lines = .ok patterns ↔
      ∃ found : List (Option Pattern), lines.map parse? = found.map .ok ∧
        patterns = found.filterMap id := by
  constructor
  · intro h
    obtain ⟨found, hfound, heq⟩ := map_eq_ok h
    exact ⟨found, Index.mapM_eq_ok_iff.1 hfound, heq.symm⟩
  · rintro ⟨found, hfound, rfl⟩
    rw [parseAll, Index.mapM_eq_ok_iff.2 hfound]
    rfl

theorem parseAll_append_eq_ok_iff {first second : List String} :
    parseAll (first ++ second) = .ok patterns ↔
      ∃ ps qs, parseAll first = .ok ps ∧ parseAll second = .ok qs ∧ patterns = ps ++ qs := by
  simp only [parseAll_eq_ok_iff, map_append]
  constructor
  · rintro ⟨found, hfound, rfl⟩
    obtain ⟨xs, ys, rfl, hxs, hys⟩ := map_eq_append_iff.1 hfound.symm
    exact ⟨_, _, ⟨xs, hxs.symm, rfl⟩, ⟨ys, hys.symm, rfl⟩, filterMap_append⟩
  · rintro ⟨_, _, ⟨xs, hxs, rfl⟩, ⟨ys, hys, rfl⟩, rfl⟩
    exact ⟨xs ++ ys, by rw [map_append, hxs, hys], filterMap_append.symm⟩

theorem ofLines_eq_ok_iff {root : Path} {lines : List String} :
    Rules.ofLines root lines = .ok a ↔ ∃ patterns, parseAll lines = .ok patterns ∧
      a = ⟨root, patterns⟩ := by
  unfold Rules.ofLines
  cases parseAll lines with
  | error flaw => simp [Except.map]
  | ok patterns => simp [Except.map, eq_comm]

theorem ofLines_flatten_eq_ok_iff {root : Path} {texts : List (List String)} :
    Rules.ofLines root texts.flatten = .ok r ↔
      ∃ layers, texts.mapM (Rules.ofLines root) = .ok layers ∧
        r = ⟨root, layers.flatMap (·.patterns)⟩ := by
  simp only [Index.mapM_eq_ok_iff]
  induction texts generalizing r with
  | nil =>
    constructor
    · intro h
      exact ⟨[], rfl, (Except.ok.inj h).symm⟩
    · rintro ⟨layers, hlayers, rfl⟩
      obtain rfl := map_eq_nil_iff.1 hlayers.symm
      rfl
  | cons lines texts ih =>
    rw [flatten_cons, ofLines_eq_ok_iff]
    simp only [parseAll_append_eq_ok_iff]
    constructor
    · rintro ⟨_, ⟨ps, qs, hps, hqs, rfl⟩, rfl⟩
      obtain ⟨layers, hlayers, hrest⟩ := ih.1 (ofLines_eq_ok_iff.2 ⟨qs, hqs, rfl⟩)
      refine ⟨⟨root, ps⟩ :: layers, ?_, ?_⟩
      · rw [map_cons, map_cons, hlayers, ofLines_eq_ok_iff.2 ⟨ps, hps, rfl⟩]
      · rw [flatMap_cons, ← (Rules.mk.inj hrest).2]
    · rintro ⟨layers, hlayers, rfl⟩
      obtain ⟨a, rest, rfl, ha, htexts⟩ := map_eq_cons_iff.1 hlayers.symm
      obtain ⟨ps, hps, rfl⟩ := ofLines_eq_ok_iff.1 ha.symm
      obtain ⟨qs, hqs, hrest⟩ := ofLines_eq_ok_iff.1 (ih.2 ⟨rest, htexts.symm, rfl⟩)
      refine ⟨_, ⟨ps, qs, hps, hqs, rfl⟩, ?_⟩
      rw [flatMap_cons, ← (Rules.mk.inj hrest).2]

/-- **The rules of a project are its layers, one after the other.** -/
theorem load_eq_ok_iff {files : Files} {project : Path} {settings : IgnoreSettings} :
    Rules.load files project settings = .ok r ↔ ∃ texts layers,
      layerTexts files (files.resolve project) settings = .ok texts ∧
      texts.mapM (Rules.ofLines (files.resolve project)) = .ok layers ∧
      r = ⟨files.resolve project, layers.flatMap (·.patterns)⟩ := by
  unfold Rules.load
  dsimp only
  rw [patternTexts_eq]
  cases layerTexts files (files.resolve project) settings with
  | error f =>
    constructor
    · intro h
      cases h
    · rintro ⟨_, _, h, -⟩
      cases h
  | ok texts =>
    simp only [Except.ok.injEq, exists_and_left, exists_eq_left']
    refine Iff.trans ?_ ofLines_flatten_eq_ok_iff
    rw [ofLines_eq_ok_iff]
    -- the two readers differ in how they report a flaw
    cases hparse : parseAll texts.flatten with
    | error flaw => simp [Except.map, bind, Except.bind, hparse]
    | ok patterns => simp [Except.map, bind, Except.bind, pure, Except.pure, hparse, eq_comm]

/-- Whether the first thing in a line is an exclamation mark. -/
def isNegation (line : String) : Bool :=
  (line.toList.dropWhile Text.isBlank).head? == some '!'

theorem isNegation_of_restores {line : String} {p : Pattern} (h : parse? line = .ok (some p))
    (hback : p.restores) : isNegation line := by
  obtain ⟨text, htext, -, hrestores, -⟩ := parse?_cases h
  -- however the line is trimmed at its end, it starts with its first character that is not blank
  have hstart : text.toList <+: line.toList.dropWhile Text.isBlank := by
    rw [htext]
    split
    · exact ⟨[], by rw [append_nil, String.toList_ofList]⟩
    · rw [Text.trim, Text.trimBy, String.toList_ofList, ← reverse_suffix, Text.trimList,
        Text.dropTrailing, reverse_reverse]
      exact dropWhile_suffix _
  rw [hback, eq_comm, Text.startsWith, isPrefixOf_iff_prefix] at hrestores
  obtain ⟨more, hmore⟩ := hrestores.trans hstart
  rw [isNegation, ← hmore]
  rfl

theorem ignores_iff_lastWord? {root : Path} {files : Files} {p : Path} {isDir : Bool}
    (hr : r = ⟨root, layers.flatMap (·.patterns)⟩) : r.ignores files p isDir ↔
    ∃ form ∈ formsOf root files p isDir, ∃ a, lastWord? layers form = some a ∧
      a.takesBack form = false := by
  rw [ignores_eq_any, any_eq_true, hr]
  refine exists_congr fun form => and_congr_right fun _ => ?_
  rw [excludes_flatMap, Option.any_eq_true]
  refine exists_congr fun a => and_congr_right fun hlast => ?_
  rw [excludes_of_lastWord? hlast, Bool.not_eq_true']

section Layers

variable {root : Path} {texts : List (List String)}
    (hlayers : texts.mapM (Rules.ofLines root) = .ok layers)
include hlayers

theorem exists_parseAll_of_mem (ha : a ∈ layers) :
    a.root = root ∧ ∃ lines ∈ texts, parseAll lines = .ok a.patterns := by
  have hok : (.ok a : Except Flaw Rules) ∈ texts.map (Rules.ofLines root) := by
    rw [Index.mapM_eq_ok_iff.1 hlayers]
    exact mem_map_of_mem ha
  obtain ⟨lines, hlines, heq⟩ := mem_map.1 hok
  obtain ⟨patterns, hparse, rfl⟩ := ofLines_eq_ok_iff.1 heq
  exact ⟨rfl, lines, hlines, hparse⟩

theorem takesBack_eq_false (hnone : ∀ lines ∈ texts, ∀ line ∈ lines, isNegation line = false)
    (ha : a ∈ layers) (form : String) : a.takesBack form = false := by
  obtain ⟨-, lines, hlines, hparse⟩ := exists_parseAll_of_mem hlayers ha
  unfold Rules.takesBack
  cases hfind : a.patterns.reverse.find? (·.hits form) with
  | none => rfl
  | some p =>
    obtain ⟨line, hline, hp⟩ :=
      exists_parse?_of_mem hparse (mem_reverse.1 (mem_of_find?_eq_some hfind))
    show p.restores = false
    by_contra hback
    have hnegation := isNegation_of_restores hp (Bool.of_not_eq_false hback)
    rw [hnone lines hlines line hline] at hnegation
    cases hnegation

variable {files : Files} {p : Path} {isDir : Bool} (hr : r = ⟨root, layers.flatMap (·.patterns)⟩)
include hr

/-- What one layer ignores stays ignored unless a later layer takes it back. -/
theorem ignores_of_layer (hplace : layers = before ++ a :: after) (h : a.ignores files p isDir)
    (hkept : ∀ b ∈ after, ∀ form ∈ formsOf root files p isDir, b.takesBack form = false) :
    r.ignores files p isDir := by
  have ha : a ∈ layers := hplace ▸ mem_append_right before mem_cons_self
  rw [ignores_eq_any, (exists_parseAll_of_mem hlayers ha).1, any_eq_true] at h
  obtain ⟨form, hform, hexcludes⟩ := h
  obtain ⟨b, hb, hmem⟩ := exists_lastWord? before after (hits_of_excludes hexcludes)
  rw [← hplace] at hb
  refine (ignores_iff_lastWord? hr).2 ⟨form, hform, b, hb, ?_⟩
  rcases mem_cons.1 hmem with rfl | hlater
  · rw [excludes_of_lastWord? hb] at hexcludes
    simpa using hexcludes
  · exact hkept b hlater form hform

/-- Where nothing is taken back, layers add up. -/
theorem ignores_eq_any_layer (hnone : ∀ lines ∈ texts, ∀ line ∈ lines, isNegation line = false) :
    r.ignores files p isDir = layers.any (·.ignores files p isDir) := by
  rw [Bool.eq_iff_iff, any_eq_true]
  constructor
  · intro h
    obtain ⟨form, hform, a, hlast, hback⟩ := (ignores_iff_lastWord? hr).1 h
    have ha := mem_of_lastWord? hlast
    refine ⟨a, ha, ?_⟩
    rw [ignores_eq_any, (exists_parseAll_of_mem hlayers ha).1, any_eq_true]
    exact ⟨form, hform, by rw [excludes_of_lastWord? hlast, hback]; rfl⟩
  · rintro ⟨a, ha, h⟩
    obtain ⟨before, after, hplace⟩ := append_of_mem ha
    refine ignores_of_layer hlayers hr hplace h fun b hb form _ => takesBack_eq_false hlayers hnone
      ?_ form
    rw [hplace]
    exact mem_append_right before (mem_cons_of_mem a hb)

end Layers

/-- **When layers only add to what is ignored.** Take any project whose rules can be read, and each
of its layers by itself. Whatever one layer ignores is ignored by all of them together, unless every
form of the path about which a layer says anything is taken back by the last layer that does. Where
no line of a layer starts with an exclamation mark, a path is ignored exactly if some layer ignores
it. -/
theorem layers_only_add_iff (files : Files) (project : Path) (settings : IgnoreSettings) {r : Rules}
    (hload : Rules.load files project settings = .ok r) :
    ∃ texts layers, layerTexts files r.root settings = .ok texts ∧
      texts.mapM (Rules.ofLines r.root) = .ok layers ∧
      (∀ p isDir, (∀ a ∈ layers, a.ignores files p isDir = true → r.ignores files p isDir = true) ↔
        (∀ a ∈ layers, a.ignores files p isDir = false) ∨
          ∃ form ∈ formsOf r.root files p isDir, ∃ a, lastWord? layers form = some a ∧
            a.takesBack form = false) ∧
      ((∀ lines ∈ texts, ∀ line ∈ lines, isNegation line = false) →
        ∀ p isDir, r.ignores files p isDir = layers.any (·.ignores files p isDir)) := by
  obtain ⟨texts, layers, htexts, hlayers, hr⟩ := load_eq_ok_iff.1 hload
  have hroot : r.root = files.resolve project := by rw [hr]
  rw [hroot]
  refine ⟨texts, layers, htexts, hlayers, fun p isDir => ?_,
    fun hnone p isDir => ignores_eq_any_layer hlayers hr hnone⟩
  rw [← ignores_iff_lastWord? hr]
  constructor
  · intro hadd
    by_cases hall : ∀ a ∈ layers, a.ignores files p isDir = false
    · exact .inl hall
    · push Not at hall
      obtain ⟨a, ha, hignored⟩ := hall
      exact .inr (hadd a ha (Bool.of_not_eq_false hignored))
  · rintro (hnone | hignored) a ha h
    · rw [hnone a ha] at h
      cases h
    · exact hignored

def restoringFiles : Files :=
  ⟨.dir [("p", .dir [(".gitignore", .file "gen/\n"), (".hammyignore", .file "!gen/\n!dist/\n")])]⟩

theorem layers_only_add_iff_restoring :
    ∃ r texts layers, Rules.load restoringFiles ⟨true, ["p"]⟩ {} = .ok r ∧
      layerTexts restoringFiles r.root {} = .ok texts ∧
        texts.mapM (Rules.ofLines r.root) = .ok layers ∧
      r.ignores restoringFiles ⟨false, ["dist", "b.js"]⟩ = false ∧
      (∃ a ∈ layers, a.ignores restoringFiles ⟨false, ["dist", "b.js"]⟩ = true) ∧
      ¬ ∃ form ∈ formsOf r.root restoringFiles ⟨false, ["dist", "b.js"]⟩ false,
        ∃ a, lastWord? layers form = some a ∧ a.takesBack form = false := by
  -- all layers together, and the first one alone
  have hverdicts : (Rules.load restoringFiles ⟨true, ["p"]⟩ {}).toOption.map
        (fun r => (r.root, r.ignores restoringFiles ⟨false, ["dist", "b.js"]⟩)) =
          some (⟨true, ["p"]⟩, false) ∧
      (Rules.ofLines ⟨true, ["p"]⟩ defaults).toOption.map
        (·.ignores restoringFiles ⟨false, ["dist", "b.js"]⟩) = some true := by
    decide +kernel
  obtain ⟨htogether, hfirst⟩ := hverdicts
  obtain ⟨r, hload, hverdict⟩ := Option.map_eq_some_iff.1 htogether
  obtain ⟨hroot, hignores⟩ := Prod.mk.inj hverdict
  replace hload := Index.eq_ok_of_toOption hload
  obtain ⟨texts, layers, htexts, hlayers, hiff, -⟩ :=
    layers_only_add_iff restoringFiles ⟨true, ["p"]⟩ {} hload
  have hdefaults : ∃ rest, texts = defaults :: rest := by
    rw [hroot] at htexts
    exact ⟨_, (Except.ok.inj htexts).symm⟩
  have hone : ∃ a ∈ layers, a.ignores restoringFiles ⟨false, ["dist", "b.js"]⟩ = true := by
    obtain ⟨rest, rfl⟩ := hdefaults
    rw [hroot] at hlayers
    obtain ⟨a, ha, hdist⟩ := Option.map_eq_some_iff.1 hfirst
    obtain ⟨b, hb, heq⟩ := Index.exists_mem_of_mapM_eq_ok hlayers mem_cons_self
    rw [Index.eq_ok_of_toOption ha] at heq
    exact ⟨b, hb, Except.ok.inj heq ▸ hdist⟩
  refine ⟨r, texts, layers, hload, htexts, hlayers, hignores, hone, fun hkept => ?_⟩
  obtain ⟨a, ha, hdist⟩ := hone
  have hadded := (hiff ⟨false, ["dist", "b.js"]⟩ false).2 (.inr hkept) a ha hdist
  rw [hignores] at hadded
  cases hadded

end CodeAtlas.Ignore
