import Mathlib.Data.List.Infix
import Mathlib.Logic.Function.Basic
import CodeAtlas.Tool.Shared

/-!
# A map with expiry

What the working memory amounts to: each key has the note that it was last kept with, until the key
is forgotten or the note expires. `contents` follows a history request by request; `LastKept` and
`FirstKept` look back at a history, which has its latest event first. `find_eq_some_iff` says that
both give the same notes.
-/

namespace CodeAtlas.Memory

open Report (commaParts)

/-- A reading of the clock, in microseconds of universal time. The calendar reaches that far. -/
structure Time where
  micros : Int
  started : 0 ≤ micros
  inCalendar : micros < Moment.lastDay * Moment.day

/-- What is asked of the memory. -/
inductive Request where
  | keep (key content tags files : String) (days : Int)
  | forget (key : String)
  | lookUp (key question tag : String) (limit : Int)

def Request.key : Request → String
  | .keep key .. => key
  | .forget key => key
  | .lookUp key .. => key

def Request.days : Request → Int
  | .keep _ _ _ _ days => days
  | _ => 0

structure Event where
  time : Time
  request : Request

/-! ## The map

The memory seen as a map from keys to notes. -/

/-- A note: when it was kept, since when its key has been found, and what was kept. -/
structure Kept where
  time : Time
  since : Time
  content : String
  tags : List String
  files : List String
  /-- For how many days the note is kept; it is kept for good if they are not positive. -/
  days : Int

/-- The last moment at which a note that expires is found. -/
def Kept.expiry (n : Kept) : Int :=
  n.time.micros + n.days * Moment.day

def Kept.lives (n : Kept) (now : Time) : Bool :=
  n.days ≤ 0 || now.micros ≤ n.expiry

abbrev Notes := String → Option Kept

namespace Notes

def find (notes : Notes) (now : Time) (key : String) : Option Kept :=
  (notes key).filter (·.lives now)

/-- The note that is kept under a key. Only a note that is found passes on since when its key has
been found. -/
def keep (notes : Notes) (now : Time) (key content tags files : String) (days : Int) : Kept :=
  ⟨now, ((notes.find now key).map (·.since)).getD now, content, commaParts tags, commaParts files,
    days⟩

/-- The notes after an event. Only a note that is found is forgotten. -/
def after (notes : Notes) (e : Event) : Notes :=
  match e.request with
  | .keep key content tags files days =>
    Function.update notes key (some (notes.keep e.time key content tags files days))
  | .forget key => if (notes.find e.time key).isSome then Function.update notes key none else notes
  | .lookUp .. => notes

end Notes

def contents : List Event → Notes
  | [] => fun _ => none
  | e :: past => (contents past).after e

/-! ## Looking back

The same seen from a point of time: what was last asked about a key. -/

/-- There was an event with `start`, and every event since then was one with `during`. Both may
depend on what came before the event. -/
def Since (start during : Event → List Event → Prop) (past : List Event) : Prop :=
  ∃ e before, e :: before <:+ past ∧ start e before ∧
    ∀ e' before', e' :: before' <:+ past → e :: before <:+ before' → during e' before'

section Since

variable {start during : Event → List Event → Prop} {e : Event} {past : List Event}

theorem not_since_nil : ¬Since start during [] := by
  rintro ⟨e, before, hsuffix, -⟩
  exact absurd (List.suffix_nil.1 hsuffix) (List.cons_ne_nil e before)

/-- Since then means: just now, or since then up to the latest event and during it. -/
theorem since_cons_iff :
    Since start during (e :: past) ↔ start e past ∨ Since start during past ∧ during e past := by
  constructor
  · rintro ⟨e₀, before₀, hsuffix, hstart, hduring⟩
    rcases List.suffix_cons_iff.1 hsuffix with heq | hsuffix
    · cases heq
      exact .inl hstart
    · refine .inr ⟨⟨e₀, before₀, hsuffix, hstart, fun e' before' he' => ?_⟩, ?_⟩
      · exact hduring e' before' (he'.trans (List.suffix_cons e past))
      · exact hduring e past List.suffix_rfl hsuffix
  · rintro (hstart | ⟨⟨e₀, before₀, hsuffix, hstart, hduring⟩, he⟩)
    · refine ⟨e, past, List.suffix_rfl, hstart, fun e' before' hle hlt => ?_⟩
      -- nothing comes after the latest event
      have hle := hle.length_le
      have hlt := hlt.length_le
      simp only [List.length_cons] at hle hlt
      omega
    · refine ⟨e₀, before₀, hsuffix.trans (List.suffix_cons e past), hstart,
        fun e' before' hle hlt => ?_⟩
      rcases List.suffix_cons_iff.1 hle with heq | hle
      · cases heq
        exact he
      · exact hduring e' before' hle hlt

end Since

def Event.Keeps (e : Event) (key : String) (n : Kept) : Prop :=
  e.time = n.time ∧ ∃ tags files, e.request = .keep key n.content tags files n.days ∧
    n.tags = commaParts tags ∧ n.files = commaParts files

/-- The note is the one that the key was last kept with, and no request to forget the key has
succeeded since: it found nothing to forget. -/
def LastKept (key : String) (n : Kept) (past : List Event) : Prop :=
  Since (fun e _ => e.Keeps key n)
    (fun e before => (∀ n, ¬e.Keeps key n) ∧ (e.request = .forget key →
      (contents before).find e.time key = none))
    past

/-- The key was kept at a time at which it was absent or expired, and at every event since then it
was found. -/
def FirstKept (key : String) (t : Time) (past : List Event) : Prop :=
  Since (fun e before => e.time = t ∧ (∃ n, e.Keeps key n) ∧ (contents before).find t key = none)
    (fun e before => (contents before).find e.time key ≠ none) past

variable {e : Event} {past : List Event} {key : String} {n : Kept} {now : Time}

theorem Notes.find_eq_some_iff {notes : Notes} :
    notes.find now key = some n ↔ notes key = some n ∧ n.lives now :=
  Option.filter_eq_some_iff

/-- What an event does to the note under a key: it keeps a new one, forgets the one that is found,
or leaves it. -/
theorem contents_cons_cases (e : Event) (past : List Event) (key : String) :
    (∃ n, e.Keeps key n ∧ contents (e :: past) key = some n ∧
        n.since = (((contents past).find e.time key).map (·.since)).getD e.time) ∨
      ((∀ n, ¬e.Keeps key n) ∧ e.request = .forget key ∧ (contents past).find e.time key ≠ none ∧
        contents (e :: past) key = none) ∨
      ((∀ n, ¬e.Keeps key n) ∧ (e.request = .forget key → (contents past).find e.time key = none) ∧
        contents (e :: past) key = contents past key) := by
  obtain ⟨t, request⟩ := e
  cases request with
  | keep k content tags files days =>
    by_cases hk : k = key
    · subst hk
      refine .inl ⟨(contents past).keep t k content tags files days,
        ⟨rfl, tags, files, rfl, rfl, rfl⟩, ?_, rfl⟩
      simp only [contents, Notes.after, Function.update_self]
    · refine .inr (.inr ⟨?_, nofun, ?_⟩)
      · rintro n ⟨-, tags', files', heq, -⟩
        cases heq
        exact hk rfl
      · simp only [contents, Notes.after, Function.update_of_ne (Ne.symm hk)]
  | forget k =>
    have hnotKeeps : ∀ n, ¬Event.Keeps ⟨t, .forget k⟩ key n := by
      rintro n ⟨-, tags', files', heq, -⟩
      cases heq
    by_cases hk : k = key
    · subst hk
      cases hfind : (contents past).find t k with
      | none =>
        refine .inr (.inr ⟨hnotKeeps, fun _ => rfl, ?_⟩)
        simp [contents, Notes.after, hfind]
      | some n =>
        refine .inr (.inl ⟨hnotKeeps, rfl, Option.some_ne_none n, ?_⟩)
        simp [contents, Notes.after, hfind]
    · refine .inr (.inr ⟨hnotKeeps, fun heq => ?_, ?_⟩)
      · cases heq
        exact absurd rfl hk
      · simp only [contents, Notes.after]
        split
        · exact Function.update_of_ne (Ne.symm hk) _ _
        · rfl
  | lookUp k question tag limit =>
    refine .inr (.inr ⟨?_, nofun, rfl⟩)
    rintro n ⟨-, tags', files', heq, -⟩
    cases heq

/-- An event keeps one note at most; since when its key has been found is not part of the
request. -/
theorem Event.Keeps.eq {n' : Kept} (h : e.Keeps key n) (h' : e.Keeps key n') :
    n' = { n with since := n'.since } := by
  obtain ⟨htime, tags, files, hrequest, htags, hfiles⟩ := h
  obtain ⟨htime', tags', files', hrequest', htags', hfiles'⟩ := h'
  rw [hrequest] at hrequest'
  cases n
  cases n'
  simp_all

/-- The map holds the note that was kept last, also when it has expired. -/
theorem lastKept_iff :
    LastKept key n past ↔ ∃ t, contents past key = some { n with since := t } := by
  induction past with
  | nil => exact ⟨fun h => absurd h not_since_nil, fun ⟨t, ht⟩ => nomatch ht⟩
  | cons e past ih =>
    have hcons :
        LastKept key n (e :: past) ↔ e.Keeps key n ∨ LastKept key n past ∧ (∀ n, ¬e.Keeps key n) ∧
        (e.request = .forget key → (contents past).find e.time key = none) := since_cons_iff
    rw [hcons, ih]
    rcases contents_cons_cases e past key with ⟨n', hkeeps, hcontents, -⟩ | ⟨hnot, hforget, hfind,
      hcontents⟩ | ⟨hnot, hforget, hcontents⟩
    · rw [hcontents]
      constructor
      · rintro (hn | ⟨-, hnot, -⟩)
        · exact ⟨n'.since, congrArg some (hn.eq hkeeps)⟩
        · exact absurd hkeeps (hnot n')
      · rintro ⟨t, ht⟩
        obtain rfl := Option.some.inj ht
        exact .inl hkeeps
    · rw [hcontents]
      constructor
      · rintro (hn | ⟨-, -, hnone⟩)
        · exact absurd hn (hnot n)
        · exact absurd (hnone hforget) hfind
      · rintro ⟨t, ht⟩
        cases ht
    · rw [hcontents]
      exact ⟨fun h => (h.resolve_left (hnot n)).1, fun h => .inr ⟨h, hnot, hforget⟩⟩

theorem firstKept_cons_iff {t : Time} : FirstKept key t (e :: past) ↔
    (e.time = t ∧ (∃ n, e.Keeps key n) ∧ (contents past).find t key = none) ∨
      FirstKept key t past ∧ (contents past).find e.time key ≠ none :=
  since_cons_iff

theorem FirstKept.unique {t t' : Time} (h : FirstKept key t past) (h' : FirstKept key t' past) :
    t = t' := by
  induction past with
  | nil => exact absurd h not_since_nil
  | cons e past ih =>
    rcases firstKept_cons_iff.1 h with ⟨rfl, -, hnone⟩ | ⟨h, hfound⟩ <;>
      rcases firstKept_cons_iff.1 h' with ⟨rfl, -, hnone'⟩ | ⟨h', hfound'⟩
    · rfl
    · exact absurd hnone hfound'
    · exact absurd hnone' hfound
    · exact ih h h'

theorem Kept.lives_of_le {t : Time} (hn : n.lives now) (hle : t.micros ≤ now.micros) :
    n.lives t := by
  simp only [Kept.lives, Bool.or_eq_true, decide_eq_true_eq] at hn ⊢
  omega

def InOrder (past : List Event) : Prop :=
  past.Pairwise fun later earlier => earlier.time.micros ≤ later.time.micros

theorem firstKept_of_find (horder : InOrder past) (hnow : ∀ e ∈ past, e.time.micros ≤ now.micros)
    (hfind : (contents past).find now key = some n) : FirstKept key n.since past := by
  induction past generalizing now n with
  | nil => cases hfind
  | cons e past ih =>
    obtain ⟨hbefore, horder⟩ := List.pairwise_cons.1 horder
    have hle := hnow e List.mem_cons_self
    obtain ⟨hn, hlives⟩ := Notes.find_eq_some_iff.1 hfind
    rw [firstKept_cons_iff]
    rcases contents_cons_cases e past key with ⟨n', hkeeps, hcontents, hsince⟩ | ⟨-, -, -,
      hcontents⟩ | ⟨-, -, hcontents⟩
    · rw [hcontents] at hn
      obtain rfl := Option.some.inj hn
      cases hold : (contents past).find e.time key with
      | none =>
        rw [hold] at hsince
        exact .inl ⟨hsince.symm, ⟨n', hkeeps⟩, hsince ▸ hold⟩
      | some old =>
        rw [hold] at hsince
        exact .inr ⟨hsince ▸ ih horder hbefore hold, Option.some_ne_none old⟩
    · rw [hcontents] at hn
      cases hn
    · -- the note was there before the event, and it was found then since it is found now
      rw [hcontents] at hn
      have hold : (contents past).find e.time key = some n :=
        Notes.find_eq_some_iff.2 ⟨hn, Kept.lives_of_le hlives hle⟩
      exact .inr ⟨ih horder hbefore hold, hold ▸ Option.some_ne_none n⟩

/-- The map finds a note exactly if the past says that it should. -/
theorem find_contents_iff (horder : InOrder past) (hnow : ∀ e ∈ past, e.time.micros ≤ now.micros) :
    (contents past).find now key = some n ↔
      LastKept key n past ∧ n.lives now ∧ FirstKept key n.since past := by
  constructor
  · intro hfind
    obtain ⟨hn, hlives⟩ := Notes.find_eq_some_iff.1 hfind
    exact ⟨lastKept_iff.2 ⟨n.since, hn⟩, hlives, firstKept_of_find horder hnow hfind⟩
  · rintro ⟨hlast, hlives, hfirst⟩
    obtain ⟨t, ht⟩ := lastKept_iff.1 hlast
    have hfind : (contents past).find now key = some { n with since := t } :=
      Notes.find_eq_some_iff.2 ⟨ht, hlives⟩
    have ht : t = n.since := (firstKept_of_find horder hnow hfind).unique hfirst
    rw [hfind, ht]

end CodeAtlas.Memory
