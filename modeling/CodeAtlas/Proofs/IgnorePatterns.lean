import Mathlib.Data.List.TakeWhile
import CodeAtlas.Ignore.Pattern
import CodeAtlas.Proofs.Paths

/-!
# What ignore patterns match

The parts of a pattern each stand for a set of texts (`Item.Takes`), and a pattern for their
concatenations (`Spells`). On a text of one line this is what the matcher decides
(`matchItems_eq_true_iff`).

A pattern that is read goes on below what it matches (`goesOn_of_parse?`): unless it takes back what
others exclude or has a bracket expression that may match a slash, it also matches what lies below a
path that it matches (`matchItems_below`). The delicate case is a pattern such as `a/***`, which
matches `a/` with nothing for its last segment, and then whatever name comes next.
-/

namespace CodeAtlas.Ignore

open List Text

/-! ## Patterns as sets of texts

The matcher keeps a list of rests. Here a part of a pattern is the set of texts it stands for. -/

variable {cs rest x : List Char} {items : List Item} {ts : List Token} {s : String}
  {segments : List String}

theorem mem_afterRun {p : Char → Bool} :
    rest ∈ afterRun p cs ↔ ∃ used, cs = used ++ rest ∧ ∀ c ∈ used, p c := by
  induction cs with
  | nil =>
    rw [afterRun, mem_singleton]
    constructor
    · rintro rfl
      exact ⟨[], rfl, nofun⟩
    · rintro ⟨used, hnil, -⟩
      exact (append_eq_nil_iff.1 hnil.symm).2
  | cons c cs ih =>
    rw [afterRun]
    constructor
    · intro h
      split at h
      · next hc =>
        rcases mem_cons.1 h with rfl | h
        · exact ⟨[], rfl, nofun⟩
        · obtain ⟨used, rfl, hused⟩ := ih.1 h
          exact ⟨c :: used, rfl, forall_mem_cons.2 ⟨hc, hused⟩⟩
      · obtain rfl := mem_singleton.1 h
        exact ⟨[], rfl, nofun⟩
    · rintro ⟨used, heq, hused⟩
      cases used with
      | nil =>
        rw [← nil_append rest, ← heq]
        split <;> exact mem_cons_self
      | cons d used =>
        obtain ⟨rfl, rfl⟩ := List.cons.inj heq
        rw [if_pos (hused c mem_cons_self)]
        exact mem_cons_of_mem _ (ih.2 ⟨used, rfl, fun e he => hused e (mem_cons_of_mem _ he)⟩)

theorem mem_afterSome {p : Char → Bool} :
    rest ∈ afterSome p cs ↔ ∃ used, cs = used ++ rest ∧ used ≠ [] ∧ ∀ c ∈ used, p c := by
  cases cs with
  | nil =>
    rw [afterSome]
    refine ⟨fun h => absurd h not_mem_nil, ?_⟩
    rintro ⟨used, hnil, hne, -⟩
    exact absurd (append_eq_nil_iff.1 hnil.symm).1 hne
  | cons c cs =>
    rw [afterSome]
    constructor
    · intro h
      split at h
      · next hc =>
        obtain ⟨used, rfl, hused⟩ := mem_afterRun.1 h
        exact ⟨c :: used, rfl, cons_ne_nil _ _, forall_mem_cons.2 ⟨hc, hused⟩⟩
      · cases h
    · rintro ⟨used, heq, hne, hused⟩
      cases used with
      | nil => exact absurd rfl hne
      | cons d used =>
        obtain ⟨rfl, rfl⟩ := List.cons.inj heq
        rw [if_pos (hused c mem_cons_self)]
        exact mem_afterRun.2 ⟨used, rfl, fun e he => hused e (mem_cons_of_mem _ he)⟩

theorem mem_afterSlash : rest ∈ afterSlash cs ↔ cs = '/' :: rest := by
  unfold afterSlash
  split
  · rw [mem_singleton, List.cons.injEq, eq_comm]
    exact (and_iff_right rfl).symm
  · next hne =>
    refine ⟨nofun, fun h => ?_⟩
    exact absurd h (hne rest)

def OneLine (cs : List Char) : Prop :=
  ∀ c ∈ cs, isPlain c = true

theorem oneLine_append {a b : List Char} : OneLine (a ++ b) ↔ OneLine a ∧ OneLine b :=
  forall_mem_append

theorem oneLine_cons {c : Char} : OneLine (c :: cs) ↔ isPlain c ∧ OneLine cs :=
  forall_mem_cons

def Token.Takes : Token → List Char → Prop
  | .exact c, used => used = [c]
  | .run, used => '/' ∉ used
  | .one, used => ∃ c, c ≠ '/' ∧ used = [c]
  | .set negated ranges, used => ∃ c,
      ((ranges.any fun (lo, hi) => lo ≤ c && c ≤ hi) != negated) = true ∧ used = [c]

def Item.Takes : Item → List Char → Prop
  | .glob t, used => t.Takes used
  | .segment, used => used ≠ [] ∧ '/' ∉ used
  | .slash, used => used = ['/']
  | .above, used => used = [] ∨ ∃ a, a ≠ [] ∧ OneLine a ∧ used = a ++ ['/']
  | .between, used => used = [] ∨ ∃ a, a ≠ [] ∧ OneLine a ∧ used = '/' :: a
  | .below, used => ∃ a, OneLine a ∧ used = '/' :: a
  | .belowOrHere, used => used = [] ∨ ∃ a, OneLine a ∧ used = '/' :: a
  | .nested, used => ∃ a b, a ≠ [] ∧ OneLine a ∧ OneLine b ∧ used = a ++ '/' :: b

theorem forall_ne_slash {used : List Char} : (∀ c ∈ used, (c != '/')) ↔ '/' ∉ used := by
  simp only [bne_iff_ne]
  exact ⟨fun h hmem => h _ hmem rfl, fun h c hc heq => h (heq ▸ hc)⟩

theorem mem_afterOne (p : Char → Bool) :
    rest ∈ (match cs with
      | c :: after => if p c then [after] else []
      | [] => []) ↔ ∃ used, cs = used ++ rest ∧ ∃ c, p c ∧ used = [c] := by
  constructor
  · intro h
    split at h
    · next d cs =>
      split at h
      · next hd => exact ⟨[d], by rw [mem_singleton.1 h]; rfl, d, hd, rfl⟩
      · cases h
    · cases h
  · rintro ⟨_, rfl, c, hc, rfl⟩
    show rest ∈ if p c then [rest] else []
    rw [if_pos hc]
    exact mem_singleton_self rest

theorem Token.mem_rests {t : Token} :
    rest ∈ t.rests cs ↔ ∃ used, cs = used ++ rest ∧ t.Takes used := by
  cases t with
  | run =>
    refine mem_afterRun.trans ?_
    simp only [forall_ne_slash]
    rfl
  | exact d =>
    refine (mem_afterOne (· == d)).trans ?_
    simp [Token.Takes]
  | one =>
    refine (mem_afterOne (· != '/')).trans ?_
    simp only [bne_iff_ne]
    rfl
  | set negated ranges => exact mem_afterOne _

/-- What is left when a text of a set is taken off the front, in all ways to do so. -/
def TakesOff (f : List Char → List (List Char)) (texts : List Char → Prop) : Prop :=
  ∀ cs rest, rest ∈ f cs ↔ ∃ used, cs = used ++ rest ∧ texts used

section TakesOff

variable {f g : List Char → List (List Char)} {texts more : List Char → Prop}

theorem TakesOff.orNothing (h : TakesOff f texts) :
    TakesOff (fun cs => cs :: f cs) fun used => used = [] ∨ texts used := by
  intro cs rest
  rw [mem_cons, h]
  constructor
  · rintro (rfl | ⟨used, rfl, hused⟩)
    · exact ⟨[], rfl, .inl rfl⟩
    · exact ⟨used, rfl, .inr hused⟩
  · rintro ⟨used, rfl, rfl | hused⟩
    · exact .inl rfl
    · exact .inr ⟨used, rfl, hused⟩

theorem TakesOff.andThen (hf : TakesOff f texts) (hg : TakesOff g more) :
    TakesOff (fun cs => (f cs).flatMap g) fun used => ∃ a, texts a ∧ ∃ b, more b ∧
      used = a ++ b := by
  intro cs rest
  rw [mem_flatMap]
  constructor
  · rintro ⟨mid, hmid, hrest⟩
    obtain ⟨a, rfl, ha⟩ := (hf ..).1 hmid
    obtain ⟨b, rfl, hb⟩ := (hg ..).1 hrest
    exact ⟨a ++ b, by rw [append_assoc], a, ha, b, hb, rfl⟩
  · rintro ⟨_, rfl, a, ha, b, hb, rfl⟩
    exact ⟨b ++ rest, (hf ..).2 ⟨a, append_assoc .., ha⟩, (hg ..).2 ⟨b, rfl, hb⟩⟩

end TakesOff

theorem Item.mem_rests {i : Item} :
    rest ∈ i.rests cs ↔ ∃ used, cs = used ++ rest ∧ i.Takes used := by
  have hsome : TakesOff (afterSome isPlain) fun a => a ≠ [] ∧ OneLine a := fun _ _ => mem_afterSome
  have hrun : TakesOff (afterRun isPlain) OneLine := fun _ _ => mem_afterRun
  have hslash : TakesOff afterSlash (· = ['/']) := fun _ _ => by simp [mem_afterSlash]
  cases i with
  | glob t => exact Token.mem_rests
  | segment =>
    refine mem_afterSome.trans ?_
    simp only [forall_ne_slash]
    rfl
  | slash => exact hslash cs rest
  | above =>
    refine ((hsome.andThen hslash).orNothing cs rest).trans ?_
    simp [Item.Takes, and_assoc]
  | between =>
    refine ((hslash.andThen hsome).orNothing cs rest).trans ?_
    simp [Item.Takes, and_assoc]
  | below =>
    refine (hslash.andThen hrun cs rest).trans ?_
    simp [Item.Takes]
  | belowOrHere =>
    refine ((hslash.andThen hrun).orNothing cs rest).trans ?_
    simp [Item.Takes]
  | nested =>
    rw [Item.rests, flatMap_assoc]
    refine (hsome.andThen (hslash.andThen hrun) cs rest).trans ?_
    constructor
    · rintro ⟨_, rfl, a, ⟨hne, ha⟩, _, ⟨_, rfl, b, hb, rfl⟩, rfl⟩
      exact ⟨_, rfl, a, b, hne, ha, hb, rfl⟩
    · rintro ⟨_, rfl, a, b, hne, ha, hb, rfl⟩
      exact ⟨_, rfl, a, ⟨hne, ha⟩, _, ⟨_, rfl, b, hb, rfl⟩, rfl⟩

def Spells : List Item → List Char → Prop
  | [], cs => cs = []
  | i :: items, cs => ∃ a b, cs = a ++ b ∧ i.Takes a ∧ Spells items b

theorem spells_append {more : List Item} :
    Spells (items ++ more) cs ↔ ∃ a b, cs = a ++ b ∧ Spells items a ∧ Spells more b := by
  induction items generalizing cs with
  | nil =>
    constructor
    · intro h
      exact ⟨[], cs, rfl, rfl, h⟩
    · rintro ⟨_, b, rfl, rfl, h⟩
      exact h
  | cons i items ih =>
    constructor
    · rintro ⟨a, b, rfl, ha, h⟩
      obtain ⟨b, c, rfl, hb, hc⟩ := ih.1 h
      exact ⟨a ++ b, c, (append_assoc a b c).symm, ⟨a, b, rfl, ha, hb⟩, hc⟩
    · rintro ⟨_, c, rfl, ⟨a, b, rfl, ha, hb⟩, hc⟩
      exact ⟨a, b ++ c, append_assoc a b c, ha, ih.2 ⟨b, c, rfl, hb, hc⟩⟩

theorem spells_singleton {i : Item} : Spells [i] cs ↔ i.Takes cs := by
  constructor
  · rintro ⟨a, _, rfl, ha, rfl⟩
    rwa [append_nil]
  · intro h
    exact ⟨cs, [], (append_nil cs).symm, h, rfl⟩

/-- **On a text of one line, the matcher decides whether the pattern stands for it.** -/
theorem matchItems_eq_true_iff (hcs : OneLine cs) :
    matchItems items cs ↔ Spells items cs := by
  induction items generalizing cs with
  | nil =>
    rw [matchItems, atEnd, Bool.or_eq_true, List.isEmpty_iff]
    refine ⟨fun h => h.resolve_right fun hfeed => ?_, .inl⟩
    rw [beq_iff_eq.1 hfeed] at hcs
    exact absurd (hcs '\n' mem_cons_self) (by decide)
  | cons i items ih =>
    rw [matchItems, any_eq_true]
    constructor
    · rintro ⟨rest, hrest, h⟩
      obtain ⟨used, rfl, hused⟩ := Item.mem_rests.1 hrest
      exact ⟨used, rest, rfl, hused, (ih (oneLine_append.1 hcs).2).1 h⟩
    · rintro ⟨used, rest, rfl, hused, h⟩
      exact ⟨rest, Item.mem_rests.2 ⟨used, rfl, hused⟩, (ih (oneLine_append.1 hcs).2).2 h⟩

/-! ## Patterns that go on below what they match

Most patterns end in a part that takes nothing, or a slash and any text. -/

/-- A token that stays in its segment. -/
def Token.InSegment (t : Token) : Prop :=
  ∀ used, t.Takes used → '/' ∉ used

/-- Parts that match everything below what they match, whatever stands before them. -/
inductive GoesOn : List Item → Prop
  | inNested : GoesOn [.nested]
  | inBelow : GoesOn [.below]
  | inSegment : GoesOn [.segment, .belowOrHere]
  | inGlobs {ts : List Token} (hne : ts ≠ []) (hts : ∀ t ∈ ts, t.InSegment) :
      GoesOn (ts.map .glob ++ [.belowOrHere])
  | after (items : List Item) {more : List Item} (h : GoesOn more) : GoesOn (items ++ more)

theorem not_mem_of_spells_globs (hts : ∀ t ∈ ts, t.InSegment) (h : Spells (ts.map .glob) cs) :
    '/' ∉ cs := by
  induction ts generalizing cs with
  | nil =>
    rw [show cs = [] from h]
    exact not_mem_nil
  | cons t ts ih =>
    obtain ⟨a, b, rfl, ha, hb⟩ := h
    rw [mem_append]
    exact not_or.2 ⟨hts t mem_cons_self a ha, ih (fun u hu => hts u (mem_cons_of_mem t hu)) hb⟩

theorem spells_globs_of_nil (hne : ts ≠ []) (h : Spells (ts.map .glob) []) {name : List Char}
    (hname : '/' ∉ name) : Spells (ts.map .glob) name := by
  cases ts with
  | nil => exact absurd rfl hne
  | cons t ts =>
    obtain ⟨a, b, hnil, ha, hb⟩ := h
    obtain ⟨rfl, rfl⟩ := append_eq_nil_iff.1 hnil.symm
    cases t with
    | run =>
      -- the first run takes the whole name and leaves nothing to the others
      exact ⟨name, [], (append_nil name).symm, hname, hb⟩
    | exact c => cases ha
    | one =>
      obtain ⟨c, -, hc⟩ := ha
      cases hc
    | set negated ranges =>
      obtain ⟨c, -, hc⟩ := ha
      cases hc

theorem takes_belowOrHere_dropWhile (hx : OneLine x) :
    Item.belowOrHere.Takes (x.dropWhile (· != '/')) := by
  cases hrest : x.dropWhile (· != '/') with
  | nil => exact .inl rfl
  | cons c rest =>
    have hc := head_dropWhile_not (· != '/') (l := x) (by rw [hrest]; exact cons_ne_nil _ _)
    have hsuffix : OneLine (c :: rest) :=
      fun d hd => hx d ((dropWhile_suffix _).subset (hrest ▸ hd))
    obtain rfl : c = '/' := by simpa [hrest] using hc
    exact .inr ⟨rest, (oneLine_cons.1 hsuffix).2, rfl⟩

/-- A text after which a name may stand. -/
def AtName (cs : List Char) : Prop :=
  ∀ c ∈ cs.getLast?, c = '/'

theorem AtName.of_append {a b : List Char} (h : AtName (a ++ b)) : AtName b := by
  intro c hc
  apply h c
  rw [getLast?_append, Option.mem_def.1 hc]
  rfl

theorem AtName.eq_nil (h : AtName cs) (hslash : '/' ∉ cs) : cs = [] := by
  by_contra hne
  have hlast := getLast?_eq_some_getLast hne
  have hmem := getLast_mem hne
  rw [h _ hlast] at hmem
  exact hslash hmem

/-- A pattern that ends in "nothing, or a slash and any text" goes on with its last part, except
where that part matched nothing and no slash comes next. -/
theorem spells_belowOrHere {first : List Item} (hx : OneLine x)
    (hat : AtName cs ∨ ∃ y, x = '/' :: y)
    (hhere : AtName cs → Spells first cs → Spells (first ++ [.belowOrHere]) (cs ++ x))
    (hcs : Spells (first ++ [.belowOrHere]) cs) : Spells (first ++ [.belowOrHere]) (cs ++ x) := by
  obtain ⟨a, b, rfl, ha, hb⟩ := spells_append.1 hcs
  rcases spells_singleton.1 hb with rfl | ⟨b, hline, rfl⟩
  · rw [append_nil] at hat hhere ⊢
    rcases hat with hat | ⟨y, rfl⟩
    · exact hhere hat ha
    · exact spells_append.2 ⟨a, _, rfl, ha, spells_singleton.2
        (.inr ⟨y, (oneLine_cons.1 hx).2, rfl⟩)⟩
  · refine spells_append.2 ⟨a, '/' :: b ++ x, append_assoc _ _ _, ha, spells_singleton.2 (.inr ?_)⟩
    exact ⟨b ++ x, oneLine_append.2 ⟨hline, hx⟩, rfl⟩

theorem GoesOn.spells (h : GoesOn items) (hx : OneLine x) (hat : AtName cs ∨ ∃ y, x = '/' :: y)
    (hcs : Spells items cs) : Spells items (cs ++ x) := by
  induction h generalizing cs with
  | inNested =>
    obtain ⟨a, b, hne, ha, hb, rfl⟩ := spells_singleton.1 hcs
    refine spells_singleton.2 ⟨a, b ++ x, hne, ha, oneLine_append.2 ⟨hb, hx⟩, ?_⟩
    rw [append_assoc, cons_append]
  | inBelow =>
    obtain ⟨a, ha, rfl⟩ := spells_singleton.1 hcs
    exact spells_singleton.2 ⟨a ++ x, oneLine_append.2 ⟨ha, hx⟩, rfl⟩
  | inSegment =>
    refine @spells_belowOrHere _ _ [.segment] hx hat (fun hat ha => ?_) hcs
    obtain ⟨hne, hslash⟩ := spells_singleton.1 ha
    exact absurd (hat.eq_nil hslash) hne
  | @inGlobs ts hne hts =>
    refine spells_belowOrHere hx hat (fun hat ha => ?_) hcs
    -- the globs matched nothing, so they match the name that comes next
    obtain rfl := hat.eq_nil (not_mem_of_spells_globs hts ha)
    refine spells_append.2 ⟨x.takeWhile (· != '/'), x.dropWhile (· != '/'),
      takeWhile_append_dropWhile.symm, ?_, ?_⟩
    · exact spells_globs_of_nil hne ha (forall_ne_slash.1 fun c hc => mem_takeWhile_imp
        (p := (· != '/')) hc)
    · exact spells_singleton.2 (takes_belowOrHere_dropWhile hx)
  | after items h ih =>
    obtain ⟨a, b, rfl, ha, hb⟩ := spells_append.1 hcs
    exact spells_append.2 ⟨a, b ++ x, append_assoc _ _ _, ha, ih (hat.imp_left .of_append) hb⟩

/-! ## Reading patterns

Whatever pattern is read ends in parts that go on below what they match. -/

theorem bind_eq_ok {ε α β : Type} {x : Except ε α} {f : α → Except ε β} {b : β}
    (h : x >>= f = .ok b) :
    ∃ a, x = .ok a ∧ f a = .ok b := by
  cases x with
  | error e => cases h
  | ok a => exact ⟨a, rfl, h⟩

theorem map_eq_ok {ε α β : Type} {x : Except ε α} {f : α → β} {b : β}
    (h : (x >>= fun a => pure (f a)) = .ok b) :
    ∃ a, x = .ok a ∧ f a = b := by
  obtain ⟨a, ha, h⟩ := bind_eq_ok h
  exact ⟨a, ha, Except.ok.inj h⟩

/-- The tokens of a glob, one after the other, if there is no bracket expression. -/
theorem tokensFrom_cons {n : Nat} {c : Char} (h : tokensFrom (n + 1) (c :: cs) = .ok ts)
    (hset : ∀ negated ranges, .set negated ranges ∉ ts) :
    ∃ t rest after, ts = t :: rest ∧ tokensFrom n after = .ok rest ∧ after ⊆ c :: cs ∧
      (t = .run ∨ t = .one ∨ ∃ d ∈ c :: cs, t = .exact d) := by
  unfold tokensFrom at h
  -- one case for each character that means something in a glob; a closed bracket would give a set
  split at h
  · cases cs with
    | nil => cases h
    | cons d cs =>
      obtain ⟨rest, hrest, rfl⟩ := map_eq_ok h
      exact ⟨_, rest, cs, rfl, hrest, fun e he => by simp [he], .inr (.inr ⟨d, by simp, rfl⟩)⟩
  · split at h
    · obtain ⟨rest, hrest, rfl⟩ := map_eq_ok h
      exact ⟨_, rest, cs, rfl, hrest, subset_cons_self c cs, .inl rfl⟩
    · split at h
      · obtain ⟨rest, hrest, rfl⟩ := map_eq_ok h
        exact ⟨_, rest, cs, rfl, hrest, subset_cons_self c cs, .inr (.inl rfl)⟩
      · split at h
        · next hbracket =>
          split at h
          · obtain ⟨ranges, -, h⟩ := bind_eq_ok h
            obtain ⟨rest, -, rfl⟩ := map_eq_ok h
            exact absurd mem_cons_self (hset _ ranges)
          · obtain ⟨rest, hrest, rfl⟩ := map_eq_ok h
            refine ⟨_, rest, cs, rfl, hrest, subset_cons_self c cs, .inr (.inr ⟨'[', ?_, rfl⟩)⟩
            rw [beq_iff_eq.1 hbracket]
            exact mem_cons_self
        · obtain ⟨rest, hrest, rfl⟩ := map_eq_ok h
          exact ⟨_, rest, cs, rfl, hrest, subset_cons_self c cs,
            .inr (.inr ⟨c, mem_cons_self, rfl⟩)⟩

theorem inSegment_of_mem_tokensFrom {n : Nat} (h : tokensFrom n cs = .ok ts) (hslash : '/' ∉ cs)
    (hset : ∀ negated ranges, .set negated ranges ∉ ts) : ∀ t ∈ ts, t.InSegment := by
  induction n generalizing cs ts with
  | zero =>
    obtain rfl := Except.ok.inj h
    exact nofun
  | succ n ih =>
    cases cs with
    | nil =>
      obtain rfl := Except.ok.inj h
      exact nofun
    | cons c cs =>
      obtain ⟨t, rest, after, rfl, hrest, hafter, ht⟩ := tokensFrom_cons h hset
      refine forall_mem_cons.2 ⟨?_, ih hrest (fun hmem => hslash (hafter hmem)) fun negated ranges
        hmem =>
        hset negated ranges (mem_cons_of_mem t hmem)⟩
      intro used hused
      rcases ht with rfl | rfl | ⟨d, hd, rfl⟩
      · exact hused
      · obtain ⟨e, he, rfl⟩ := hused
        rw [mem_singleton]
        exact he.symm
      · rw [show used = [d] from hused, mem_singleton]
        rintro rfl
        exact hslash hd

def Item.isSet : Item → Bool
  | .glob (.set _ _) => true
  | _ => false

def NoSet (items : List Item) : Prop :=
  ∀ i ∈ items, i.isSet = false

instance (items : List Item) : Decidable (NoSet items) :=
  inferInstanceAs (Decidable (∀ i ∈ items, _))

theorem noSet_append {more : List Item} : NoSet (items ++ more) ↔ NoSet items ∧ NoSet more :=
  forall_mem_append

theorem goesOn_segmentItems (h : segmentItems s = .ok items) (hne : s ≠ "")
    (hslash : '/' ∉ s.toList) (hset : NoSet items) : GoesOn (items ++ [.belowOrHere]) := by
  rw [segmentItems] at h
  split at h
  · obtain rfl := Except.ok.inj h
    exact .inSegment
  · cases hts : tokens s with
    | error flaw =>
      rw [hts] at h
      cases h
    | ok ts =>
      rw [hts] at h
      obtain rfl := Except.ok.inj h
      have hsets : ∀ negated ranges, .set negated ranges ∉ ts := by
        intro negated ranges hmem
        exact Bool.false_ne_true (hset _ (mem_map_of_mem hmem)).symm
      refine .inGlobs ?_ (inSegment_of_mem_tokensFrom hts hslash hsets)
      rintro rfl
      -- a glob that is not empty has a token
      rw [tokens] at hts
      cases hcs : s.toList with
      | nil => exact hne (String.toList_eq_nil_iff.1 hcs)
      | cons c cs =>
        rw [hcs, ← String.length_toList, hcs] at hts
        obtain ⟨t, rest, _, hnil, -⟩ := tokensFrom_cons hts hsets
        cases hnil

/-- The segments after the first go on below the last one. -/
theorem goesOn_laterItems {slash : Bool} (h : laterItems slash segments = .ok items)
    (hne : segments ≠ [])
    (hlast : segments.getLast? ≠ some "") (hslash : ∀ s ∈ segments, '/' ∉ s.toList)
    (hset : NoSet items) : GoesOn items := by
  -- the last segment decides, and all others only stand before it
  induction segments generalizing slash items with
  | nil => exact absurd rfl hne
  | cons s rest ih =>
    have hs := hslash s mem_cons_self
    cases rest with
    | nil =>
      rw [laterItems] at h
      split at h
      · obtain rfl := Except.ok.inj h
        exact .inBelow
      · obtain ⟨found, hfound, rfl⟩ := map_eq_ok h
        rw [append_assoc] at hset ⊢
        refine .after _ (goesOn_segmentItems hfound ?_ hs
          (noSet_append.1 (noSet_append.1 hset).2).1)
        rintro rfl
        exact hlast rfl
    | cons s' rest =>
      have hrest : ∀ u ∈ s' :: rest, '/' ∉ u.toList := fun u hu => hslash u (mem_cons_of_mem s hu)
      rw [getLast?_cons_cons] at hlast
      rw [laterItems] at h
      · split at h
        · obtain ⟨more, hmore, rfl⟩ := map_eq_ok h
          rw [← singleton_append] at hset ⊢
          exact .after _ (ih hmore (cons_ne_nil _ _) hlast hrest (noSet_append.1 hset).2)
        · obtain ⟨found, hfound, h⟩ := bind_eq_ok h
          obtain ⟨more, hmore, rfl⟩ := map_eq_ok h
          exact .after _ (ih hmore (cons_ne_nil _ _) hlast hrest (noSet_append.1 hset).2)
      · exact nofun

theorem goesOn_itemsOf (h : itemsOf segments = .ok items) (hlast : segments.getLast? ≠ some "")
    (hslash : ∀ s ∈ segments, '/' ∉ s.toList) (hset : NoSet items) : GoesOn items := by
  cases segments with
  | nil => cases h
  | cons s rest =>
    have hs := hslash s mem_cons_self
    cases rest with
    | nil =>
      rw [itemsOf] at h
      split at h
      · obtain rfl := Except.ok.inj h
        exact .inSegment
      · obtain ⟨found, hfound, rfl⟩ := map_eq_ok h
        refine goesOn_segmentItems hfound ?_ hs (noSet_append.1 hset).1
        rintro rfl
        exact hlast rfl
    | cons s' rest =>
      have hrest : ∀ u ∈ s' :: rest, '/' ∉ u.toList := fun u hu => hslash u (mem_cons_of_mem s hu)
      rw [getLast?_cons_cons] at hlast
      rw [itemsOf] at h
      · split at h
        · obtain ⟨more, hmore, rfl⟩ := map_eq_ok h
          rw [← singleton_append] at hset ⊢
          exact .after _ (goesOn_laterItems hmore (cons_ne_nil _ _) hlast hrest
            (noSet_append.1 hset).2)
        · obtain ⟨found, hfound, h⟩ := bind_eq_ok h
          obtain ⟨more, hmore, rfl⟩ := map_eq_ok h
          exact .after _ (goesOn_laterItems hmore (cons_ne_nil _ _) hlast hrest
            (noSet_append.1 hset).2)
      · exact nofun

theorem mem_collapseStars : s ∈ collapseStars segments ↔ s ∈ segments := by
  fun_induction collapseStars segments with
  | case1 a b rest hstars ih =>
    obtain ⟨rfl, rfl⟩ : a = "**" ∧ b = "**" := by simpa using hstars
    rw [ih, mem_cons (a := s) (b := "**") (l := "**" :: rest)]
    refine ⟨.inr, ?_⟩
    rintro (rfl | h)
    · exact mem_cons_self
    · exact h
  | case2 a b rest hstars ih => rw [mem_cons, ih, mem_cons (l := b :: rest)]
  | case3 segments hshort => rfl

theorem collapseStars_of_not_mem (h : "**" ∉ segments) : collapseStars segments = segments := by
  fun_induction collapseStars segments with
  | case1 a b rest hstars ih =>
    obtain ⟨rfl, rfl⟩ : a = "**" ∧ b = "**" := by simpa using hstars
    exact absurd mem_cons_self h
  | case2 a b rest hstars ih => rw [ih fun hmem => h (mem_cons_of_mem a hmem)]
  | case3 segments hshort => rfl


/-- The segments of a pattern that is anchored, with a double star before one that is not. -/
def anchor (segments : List String) : List String :=
  match segments with
  | "" :: rest => rest
  | [s] => if s == "**" then [s] else ["**", s]
  | [s, ""] => if s == "**" then [s, ""] else ["**", s, ""]
  | other => other

theorem normalize_eq (segments : List String) : normalize segments =
    if (anchor segments).getLast? == some "" && 1 < (anchor segments).length then (anchor
      segments).dropLast ++ ["**"]
    else anchor segments :=
  rfl

theorem mem_anchor (h : s ∈ anchor segments) : s ∈ segments ∨ s = "**" := by
  unfold anchor at h
  split at h
  · exact .inl (mem_cons_of_mem _ h)
  · split at h
    · exact .inl h
    · exact (mem_cons.1 h).symm
  · split at h
    · exact .inl h
    · exact (mem_cons.1 h).symm
  · exact .inl h

theorem mem_normalize (h : s ∈ normalize segments) : s ∈ segments ∨ s = "**" := by
  rw [normalize_eq] at h
  split at h
  · rcases mem_append.1 h with h | h
    · exact mem_anchor (dropLast_subset _ h)
    · exact .inr (mem_singleton.1 h)
  · exact mem_anchor h

theorem anchor_ne (h : segments ≠ ["", ""]) : anchor segments ≠ [""] := by
  unfold anchor
  split
  · rintro rfl
    exact h rfl
  · next hempty =>
    split
    · intro heq
      exact hempty (List.cons.inj heq).1
    · intro heq
      cases (List.cons.inj heq).2
  · split
    · intro heq
      cases (List.cons.inj heq).2
    · intro heq
      cases (List.cons.inj heq).2
  · next hempty _ _ =>
    rintro rfl
    exact hempty _ rfl

theorem getLast?_normalize_ne (h : segments ≠ ["", ""]) :
    (normalize segments).getLast? ≠ some "" := by
  rw [normalize_eq]
  split
  · rw [getLast?_concat]
    decide
  · next hkept =>
    -- an empty last segment stays only where it is the only one
    intro hlast
    rw [hlast, Bool.and_eq_true, decide_eq_true_eq] at hkept
    obtain ⟨front, hfront⟩ := getLast?_eq_some_iff.1 hlast
    apply anchor_ne h
    have hlength : ¬ 1 < (anchor segments).length :=
      fun hlength => hkept ⟨beq_self_eq_true _, hlength⟩
    rw [hfront, length_append, length_singleton] at hlength
    rw [hfront, length_eq_zero_iff.1 (show front.length = 0 by omega)]
    rfl

theorem parse?_cases {line : String} {p : Pattern} (h : parse? line = .ok (some p)) :
    ∃ text, text = (if keepsLastBlank line then String.ofList (line.toList.dropWhile isBlank)
      else Text.trim line) ∧
      text ≠ "/" ∧ p.restores = startsWith text "!" ∧ (p.items = [.nested] ∨
        itemsOf (normalize
          (collapseStars (splitChar '/' (if p.restores then skip 1 text else text)))) =
          .ok p.items) := by
  unfold parse? at h
  dsimp only at h
  refine ⟨_, rfl, ?_⟩
  generalize (if keepsLastBlank line then String.ofList (line.toList.dropWhile isBlank)
    else Text.trim line) = text at h
  split at h
  · cases Except.ok.inj h
  · next hreal =>
    have hslash : text ≠ "/" := by
      rintro rfl
      exact hreal (by decide)
    generalize hmark : startsWith text "!" = marked at h
    generalize hbody : (if marked then skip 1 text else text) = body at h
    by_cases hstars : (collapseStars (splitChar '/' body) == ["**", ""])
    · rw [if_pos hstars] at h
      obtain rfl := Option.some.inj (Except.ok.inj h)
      exact ⟨hslash, rfl, .inl rfl⟩
    · rw [if_neg hstars] at h
      obtain ⟨items, hitems, h⟩ := bind_eq_ok h
      obtain rfl := Option.some.inj (Except.ok.inj h)
      rw [← hbody] at hitems
      exact ⟨hslash, rfl, .inr hitems⟩

/-- A pattern that takes nothing back and has no bracket expression. -/
def Pattern.Simple (p : Pattern) : Prop :=
  p.restores = false ∧ NoSet p.items

instance (p : Pattern) : Decidable p.Simple :=
  inferInstanceAs (Decidable (_ ∧ _))

theorem goesOn_of_parse? {line : String} {p : Pattern} (h : parse? line = .ok (some p))
    (hsimple : p.Simple) : GoesOn p.items := by
  obtain ⟨text, -, hslash, -, hnested | hitems⟩ := parse?_cases h
  · rw [hnested]
    exact .inNested
  · rw [hsimple.1, if_neg Bool.false_ne_true] at hitems
    have hcut : ∀ s ∈ splitChar '/' text, '/' ∉ s.toList := by
      intro s hs
      obtain ⟨piece, hpiece, rfl⟩ := mem_map.1 hs
      rw [String.toList_ofList]
      exact fun hmem => Bool.false_ne_true ((Text.of_mem_splitBy hpiece _ hmem).symm.trans
        (beq_self_eq_true '/'))
    refine goesOn_itemsOf hitems (getLast?_normalize_ne fun hempty => hslash ?_) (fun s hs => ?_)
      hsimple.2
    · -- two empty segments are those of a lone slash
      have hplain : "**" ∉ splitChar '/' text := by
        rw [← mem_collapseStars, hempty]
        decide
      have hwhole := collapseStars_of_not_mem hplain
      rw [hempty] at hwhole
      have hpieces : Text.splitBy (· == '/') text.toList = [[], []] := by
        have hlists := congrArg (List.map String.toList) hwhole.symm
        simpa [splitChar, map_map, Function.comp_def] using hlists
      have hjoined := Text.intercalate_splitBy '/' text.toList
      rw [hpieces] at hjoined
      exact String.toList_inj.1 hjoined.symm
    · rcases mem_normalize hs with hs | rfl
      · exact hcut s (mem_collapseStars.1 hs)
      · decide

/-- **What lies below a path that a pattern matches, with a slash after it or without, is matched
too.** -/
theorem matchItems_below (h : GoesOn items) (hcs : OneLine cs) (hx : OneLine x)
    (hmatch : matchItems items cs ∨ matchItems items (cs ++ ['/'])) :
    matchItems items (cs ++ '/' :: x) := by
  have hslash : OneLine ['/'] := oneLine_cons.2 ⟨by decide, nofun⟩
  have hdir : OneLine (cs ++ ['/']) := oneLine_append.2 ⟨hcs, hslash⟩
  have hall : cs ++ '/' :: x = cs ++ ['/'] ++ x := by rw [append_assoc, singleton_append]
  rw [matchItems_eq_true_iff hcs, matchItems_eq_true_iff hdir] at hmatch
  rw [matchItems_eq_true_iff (by rw [hall]; exact oneLine_append.2 ⟨hdir, hx⟩)]
  rcases hmatch with hmatch | hmatch
  · exact h.spells (oneLine_cons.2 ⟨by decide, hx⟩) (.inr ⟨x, rfl⟩) hmatch
  · rw [hall]
    refine h.spells hx (.inl ?_) hmatch
    intro c hc
    rw [getLast?_concat] at hc
    exact (Option.some.inj hc).symm

end CodeAtlas.Ignore
