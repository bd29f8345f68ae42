import CodeAtlas.Analysis.Bridge
import CodeAtlas.Proofs.Cutting
import CodeAtlas.Proofs.LetterCase

/-!
# The normal form of a path

Three passes go over the text of a path, one for each way to mark a parameter.
-/

namespace CodeAtlas.Bridge

open List
open Text (isWord join lower lowerChars splitChar trimList)

variable {opener cs rest name after : List Char} {c : Char}

/-! ## The passes over a path

Parameters are replaced by one pass for each way to mark them. -/

/-- The text starts with a marked parameter: an opener, at least one character and a closing
brace. -/
def Opens (opener cs : List Char) : Prop :=
  ∃ name after, name ≠ [] ∧ '\x7d' ∉ name ∧ cs = opener ++ (name ++ '\x7d' :: after)

theorem starSpans_append_of_span (hopener : opener ≠ []) (hne : name ≠ []) (hname : '\x7d' ∉ name) :
    starSpans opener (opener ++ (name ++ '\x7d' :: after)) = '*' :: starSpans opener after := by
  have hinside : ∀ c ∈ name, (c != '\x7d') :=
    fun c hc => bne_iff_ne.2 fun h => hname (h ▸ hc)
  have hdrop : (name ++ '\x7d' :: after).dropWhile (· != '\x7d') = '\x7d' :: after := by
    rw [dropWhile_append_of_pos hinside]
    rfl
  have htake : ((name ++ '\x7d' :: after).takeWhile (· != '\x7d')).isEmpty = false := by
    rw [takeWhile_append_of_pos hinside]
    simpa using fun h => absurd h hne
  obtain ⟨o, os, rfl⟩ := exists_cons_of_ne_nil hopener
  have hlength : (o :: (os ++ (name ++ '\x7d' :: after))).drop (max 1 (o :: os).length) = name ++
      '\x7d' :: after := by
    rw [Nat.max_eq_right (by simp), ← cons_append, drop_left]
  have hstart : (o :: os).isPrefixOf (o :: (os ++ (name ++ '\x7d' :: after))) :=
    isPrefixOf_iff_prefix.2 (prefix_append (o :: os) _)
  rw [cons_append, starSpans, if_pos hstart]
  dsimp only
  split
  · next head more hmore =>
    rw [hlength, hdrop] at hmore
    rw [hlength, if_neg (by rw [htake]; simp), (List.cons.inj hmore).2]
  · next hmore =>
    rw [hlength, hdrop] at hmore
    cases hmore

theorem starSpans_cons_of_not_opens (hopener : opener ≠ []) (h : ¬ Opens opener (c :: rest)) :
    starSpans opener (c :: rest) = c :: starSpans opener rest := by
  rw [starSpans]
  split
  · next hstart =>
    obtain ⟨inside, hinside⟩ := isPrefixOf_iff_prefix.1 hstart
    have hlength : (c :: rest).drop (max 1 opener.length) = inside := by
      rw [Nat.max_eq_right (length_pos_iff.2 hopener), ← hinside, drop_left]
    dsimp only
    split
    · next head more hmore =>
      rw [hlength] at hmore ⊢
      obtain rfl : head = '\x7d' := by
        have hstop := head?_dropWhile_not (· != '\x7d') inside
        rw [hmore] at hstop
        simpa using hstop
      split
      · rfl
      · next hname =>
        refine absurd ⟨inside.takeWhile (· != '\x7d'), more, by simpa using hname, ?_, ?_⟩ h
        · intro hmem
          simpa using mem_takeWhile_imp hmem
        · rw [← hmore, takeWhile_append_dropWhile, hinside]
    · rfl
  · rfl

theorem opens_brace_iff :
    Opens ['\x7b'] (c :: cs) ↔ c = '\x7b' ∧ '\x7d' ∈ cs ∧ cs.head? ≠ some '\x7d' := by
  constructor
  · rintro ⟨name, after, hne, hname, h⟩
    obtain ⟨rfl, rfl⟩ := List.cons.inj h
    refine ⟨rfl, by simp, ?_⟩
    obtain ⟨d, name, rfl⟩ := exists_cons_of_ne_nil hne
    intro hd
    exact hname (by simp [Option.some.inj hd])
  · rintro ⟨rfl, hmem, hhead⟩
    obtain ⟨name, after, rfl, hname⟩ := eq_append_cons_of_mem hmem
    refine ⟨name, after, ?_, hname, rfl⟩
    rintro rfl
    exact hhead rfl

theorem not_opens_of_ne {o : Char} {os : List Char} (h : c ≠ o) :
    ¬ Opens (o :: os) (c :: rest) := by
  rintro ⟨name, after, -, -, heq⟩
  exact h (List.cons.inj heq).1

theorem starSpans_append_of_forall_ne {o : Char} {os : List Char} (h : ∀ c ∈ cs, c ≠ o) :
    starSpans (o :: os) (cs ++ rest) = cs ++ starSpans (o :: os) rest := by
  induction cs with
  | nil => rfl
  | cons c cs ih =>
    rw [cons_append, starSpans_cons_of_not_opens (cons_ne_nil o os)
      (not_opens_of_ne (h c mem_cons_self)), ih fun d hd => h d (mem_cons_of_mem c hd), cons_append]

theorem starColons_append_of_forall_ne (h : ∀ c ∈ cs, c ≠ ':') :
    starColons (cs ++ rest) = cs ++ starColons rest := by
  induction cs with
  | nil => rfl
  | cons c cs ih =>
    rw [cons_append, starColons, if_neg (by simp [h c]), ih fun d hd => h d (mem_cons_of_mem c hd),
      cons_append]

theorem starColons_name (hne : name ≠ []) (hname : ∀ c ∈ name, isWord c)
    (hrest : ∀ c ∈ rest.head?, isWord c = false) :
    starColons (':' :: (name ++ rest)) = '*' :: starColons rest := by
  have hhead : (name ++ rest).head?.any isWord := by
    obtain ⟨c, name, rfl⟩ := exists_cons_of_ne_nil hne
    simpa using hname c
  rw [starColons, if_pos (by simpa using hhead), dropWhile_append_of_pos hname,
    Text.dropWhile_of_head? hrest]

/-- No marked parameter starts anywhere in the text. -/
def Spanless (opener cs : List Char) : Prop :=
  ∀ ⦃tail : List Char⦄, tail <:+ cs → ¬ Opens opener tail

theorem spanless_nil (hopener : opener ≠ []) : Spanless opener [] := by
  rintro tail htail ⟨name, after, -, -, rfl⟩
  simpa [hopener] using suffix_nil.1 htail

theorem spanless_cons_iff :
    Spanless opener (c :: cs) ↔ ¬ Opens opener (c :: cs) ∧ Spanless opener cs := by
  constructor
  · intro h
    exact ⟨h suffix_rfl, fun tail htail => h (htail.trans (suffix_cons c cs))⟩
  · rintro ⟨hhere, hlater⟩ tail htail
    rcases suffix_cons_iff.1 htail with rfl | htail
    · exact hhere
    · exact hlater htail

theorem starSpans_of_spanless (hopener : opener ≠ []) (h : Spanless opener cs) :
    starSpans opener cs = cs := by
  induction cs with
  | nil => rw [starSpans]
  | cons c cs ih =>
    obtain ⟨hhere, hlater⟩ := spanless_cons_iff.1 h
    rw [starSpans_cons_of_not_opens hopener hhere, ih hlater]

/-- The recursion of the pass: past a marked parameter, or past one character that starts none. -/
theorem span_induction (opener : List Char) {P : List Char → Prop} (nil : P [])
    (span : ∀ name after, name ≠ [] → '\x7d' ∉ name → P after →
      P (opener ++ (name ++ '\x7d' :: after)))
    (other : ∀ c rest, ¬ Opens opener (c :: rest) → P rest → P (c :: rest)) (cs : List Char) :
    P cs := by
  induction hlen : cs.length using Nat.strongRecOn generalizing cs with
  | ind n ih =>
    cases cs with
    | nil => exact nil
    | cons c rest =>
      by_cases hopens : Opens opener (c :: rest)
      · obtain ⟨name, after, hne, hname, heq⟩ := hopens
        have hshort : after.length < n := by
          rw [← hlen, heq]
          simp only [length_append, length_cons]
          omega
        rw [heq]
        exact span name after hne hname (ih after.length hshort after rfl)
      · exact other c rest hopens (ih rest.length (by rw [← hlen]; exact Nat.lt_succ_self _) rest
          rfl)

theorem mem_of_mem_starSpans (h : '\x7d' ∈ starSpans ['\x7b'] cs) : '\x7d' ∈ cs := by
  induction cs using span_induction ['\x7b'] with
  | nil => rwa [starSpans] at h
  | span name after hne hname ih => simp
  | other c rest hopens ih =>
    rw [starSpans_cons_of_not_opens (by simp) hopens] at h
    rcases mem_cons.1 h with rfl | h
    · exact mem_cons_self
    · exact mem_cons_of_mem c (ih h)

theorem spanless_starSpans (cs : List Char) : Spanless ['\x7b'] (starSpans ['\x7b'] cs) := by
  induction cs using span_induction ['\x7b'] with
  | nil =>
    rw [starSpans]
    exact spanless_nil (by simp)
  | span name after hne hname ih =>
    rw [starSpans_append_of_span (by simp) hne hname]
    exact spanless_cons_iff.2 ⟨not_opens_of_ne (by decide), ih⟩
  | other c rest hopens ih =>
    rw [starSpans_cons_of_not_opens (by simp) hopens]
    refine spanless_cons_iff.2 ⟨fun hopened => hopens ?_, ih⟩
    -- if a parameter starts here now, one did before: what follows keeps its first brace and gains
    -- none
    obtain ⟨rfl, hclosed, hhead⟩ := opens_brace_iff.1 hopened
    refine opens_brace_iff.2 ⟨rfl, mem_of_mem_starSpans hclosed, fun hrest => hhead ?_⟩
    obtain ⟨rest, rfl⟩ := head?_eq_some_iff.1 hrest
    rw [starSpans_cons_of_not_opens (by simp) (not_opens_of_ne (by decide))]
    rfl

theorem mem_of_mem_starColons (h : '\x7d' ∈ starColons cs) : '\x7d' ∈ cs := by
  fun_induction starColons cs with
  | case1 => exact h
  | case2 c rest hname ih =>
    have hlater := ih ((mem_cons.1 h).resolve_left (by decide))
    exact mem_cons_of_mem c ((dropWhile_suffix _).mem hlater)
  | case3 c rest hname ih =>
    rcases mem_cons.1 h with rfl | h
    · exact mem_cons_self
    · exact mem_cons_of_mem c (ih h)

theorem Spanless.starColons (h : Spanless ['\x7b'] cs) : Spanless ['\x7b'] (starColons cs) := by
  fun_induction Bridge.starColons cs with
  | case1 => exact h
  | case2 c rest hname ih =>
    refine spanless_cons_iff.2 ⟨not_opens_of_ne (by decide), ih fun tail htail => ?_⟩
    exact (spanless_cons_iff.1 h).2 (htail.trans (dropWhile_suffix _))
  | case3 c rest hname ih =>
    obtain ⟨hhere, hlater⟩ := spanless_cons_iff.1 h
    refine spanless_cons_iff.2 ⟨fun hopened => hhere ?_, ih hlater⟩
    -- as in the first pass, a parameter that starts here now did so before
    obtain ⟨rfl, hclosed, hhead⟩ := opens_brace_iff.1 hopened
    refine opens_brace_iff.2 ⟨rfl, mem_of_mem_starColons hclosed, fun hrest => hhead ?_⟩
    obtain ⟨rest, rfl⟩ := head?_eq_some_iff.1 hrest
    rw [Bridge.starColons, if_neg (by simp)]
    rfl

def starParameters (cs : List Char) : List Char :=
  starColons (starSpans ['\x7b'] cs)

/-- **The last pass never finds a parameter**: the first one has replaced what stands behind a
dollar sign before. -/
theorem normalizePath_eq (path : String) : normalizePath path =
    String.ofList (lowerChars (starParameters (trimList (· == '/') path.toList))) := by
  have hspanless := (spanless_starSpans (trimList (· == '/') path.toList)).starColons
  rw [normalizePath, starParameters, starSpans_of_spanless (by simp)]
  -- behind the dollar sign of such a parameter stands one in braces, and none of those is left
  rintro tail htail ⟨name, after, hne, hname, rfl⟩
  exact hspanless ((suffix_cons '$' _).trans htail) ⟨name, after, hne, hname, rfl⟩

/-! ## Segments

No pass crosses a slash, so what it does is told segment by segment. -/

/-- A text of at least one character, all of them of a class. -/
structure WordOf (p : Char → Bool) where
  text : String
  ne_empty : text ≠ ""
  all : ∀ c ∈ text.toList, p c = true

/-- Characters of a word in a path: letters, digits, the underscore and the hyphen. -/
def isPathChar (c : Char) : Bool :=
  isWord c || c == '-'

/-- A segment of a path: a word, or a parameter that has a name. -/
inductive Segment where
  | word (w : WordOf isPathChar)
  | parameter (name : WordOf isWord)

/-- How a parameter is marked. -/
inductive Style where
  | braces
  | colon
  | template
deriving DecidableEq

namespace Segment

def written (style : Style) : Segment → String
  | .word w => w.text
  | .parameter name =>
    match style with
    | .braces => "\x7b" ++ name.text ++ "\x7d"
    | .colon => ":" ++ name.text
    | .template => "$\x7b" ++ name.text ++ "\x7d"

end Segment

def slashes (n : Nat) : String :=
  String.ofList (List.replicate n '/')

def writtenPath (segments : List Segment) (styles : Nat → Style) (leading trailing : Nat) :
    String :=
  slashes leading ++ join "/" (segments.mapIdx fun i segment => segment.written (styles i)) ++
    slashes trailing

/-- A rewriting turns a segment into another, whatever segments follow. -/
def Turns (rewriting : List Char → List Char) (a b : List Char) : Prop :=
  ∀ rest, (∀ c ∈ rest.head?, c = '/') → rewriting (a ++ rest) = b ++ rewriting rest

structure KeepsSlash (rewriting : List Char → List Char) : Prop where
  nil : rewriting [] = []
  slash : ∀ rest, rewriting ('/' :: rest) = '/' :: rewriting rest

section Turning

variable {f g : List Char → List Char} {a b : List Char}

theorem KeepsSlash.comp (hf : KeepsSlash f) (hg : KeepsSlash g) :
    KeepsSlash fun cs => g (f cs) where
  nil := by rw [hf.nil, hg.nil]
  slash rest := by rw [hf.slash, hg.slash]

theorem Turns.comp (hf : KeepsSlash f) (hab : Turns f a b) (hbc : Turns g b cs) :
    Turns (fun cs => g (f cs)) a cs := by
  intro rest hrest
  show g (f (a ++ rest)) = cs ++ g (f rest)
  rw [hab rest hrest]
  -- what follows still starts with a slash after the first rewriting
  refine hbc (f rest) fun c hc => ?_
  cases rest with
  | nil =>
    rw [hf.nil] at hc
    cases hc
  | cons d rest =>
    rw [hrest d rfl, hf.slash] at hc
    exact (Option.some.inj hc).symm

theorem rewriting_join (hf : KeepsSlash f) {pieces pieces' : List String}
    (h : List.Forall₂ (fun s s' => Turns f s.toList s'.toList) pieces pieces') :
    f (join "/" pieces).toList = (join "/" pieces').toList := by
  induction h with
  | nil => exact hf.nil
  | cons hfirst hrest ih =>
    cases hrest with
    | nil =>
      have hlast := hfirst [] (by simp)
      rwa [append_nil, hf.nil, append_nil] at hlast
    | cons hsecond hmore =>
      simp only [join, String.toList_append, append_assoc] at ih ⊢
      rw [hfirst _ (by simp)]
      simp only [String.reduceToList, singleton_append, hf.slash, ih]

end Turning

theorem keepsSlash_starSpans : KeepsSlash (starSpans ['\x7b']) where
  nil := by rw [starSpans]
  slash rest := starSpans_cons_of_not_opens (by simp) (not_opens_of_ne (by decide))

theorem keepsSlash_starColons : KeepsSlash starColons where
  nil := by rw [starColons]
  slash rest := by rw [starColons, if_neg (by simp)]

theorem keepsSlash_lowerChars : KeepsSlash lowerChars where
  nil := rfl
  slash rest := Text.lowerAfter_slash [] [] rest

theorem turns_lowerChars (a : List Char) : Turns lowerChars a (lowerChars a) := by
  intro rest hrest
  cases rest with
  | nil => simp [keepsSlash_lowerChars.nil]
  | cons c rest =>
    obtain rfl := hrest c rfl
    rw [lowerChars, Text.lowerAfter_slash, keepsSlash_lowerChars.slash]
    rfl

namespace WordOf

variable {p : Char → Bool}

theorem ne_nil (w : WordOf p) : w.text.toList ≠ [] := by
  simpa using w.ne_empty

theorem not_mem (w : WordOf p) {c : Char} (hc : p c = false) : c ∉ w.text.toList := by
  intro hmem
  rw [w.all c hmem] at hc
  cases hc

theorem forall_ne (w : WordOf p) {d : Char} (hd : p d = false) : ∀ c ∈ w.text.toList, c ≠ d :=
  fun _ hc h => w.not_mem hd (h ▸ hc)

end WordOf

/-- What is left of a parameter: the passes do not reach the dollar sign in front of it. -/
def Style.mark : Style → String
  | .braces => "*"
  | .colon => "*"
  | .template => "$*"

theorem keepsSlash_starParameters : KeepsSlash starParameters :=
  keepsSlash_starSpans.comp keepsSlash_starColons

theorem Turns.starParameters {a b : List Char} (hab : Turns (starSpans ['\x7b']) a b)
    (hbc : Turns starColons b cs) : Turns starParameters a cs :=
  show Turns (fun cs => starColons (starSpans ['\x7b'] cs)) a cs from hab.comp keepsSlash_starSpans
      hbc

theorem turns_starSpans_of_forall_ne (h : ∀ c ∈ cs, c ≠ '\x7b') :
    Turns (starSpans ['\x7b']) cs cs :=
  fun _ _ => starSpans_append_of_forall_ne h

theorem turns_starColons_of_forall_ne (h : ∀ c ∈ cs, c ≠ ':') : Turns starColons cs cs :=
  fun _ _ => starColons_append_of_forall_ne h

theorem turns_word (w : WordOf isPathChar) : Turns starParameters w.text.toList w.text.toList :=
  .starParameters (turns_starSpans_of_forall_ne (w.forall_ne (by decide)))
    (turns_starColons_of_forall_ne (w.forall_ne (by decide)))

theorem turns_parameter (style : Style) (name : WordOf isWord) :
    Turns starParameters ((Segment.parameter name).written style).toList style.mark.toList := by
  have hspan (rest : List Char) :
      starSpans ['\x7b'] ('\x7b' :: (name.text.toList ++ '\x7d' :: rest)) =
      '*' :: starSpans ['\x7b'] rest :=
    starSpans_append_of_span (by simp) name.ne_nil (name.not_mem (by decide))
  cases style with
  | braces =>
    refine .starParameters (b := ['*']) (fun rest _ => ?_) (turns_starColons_of_forall_ne (by simp))
    simpa [Segment.written] using hspan rest
  | colon =>
    refine .starParameters (b := ':' :: name.text.toList) ?_ fun rest hrest => ?_
    · rw [Segment.written, String.toList_append]
      exact turns_starSpans_of_forall_ne (forall_mem_cons.2 ⟨by decide, name.forall_ne (by decide)⟩)
    · refine starColons_name name.ne_nil name.all fun c hc => ?_
      rw [hrest c hc]
      decide
  | template =>
    refine .starParameters (b := ['$', '*']) (fun rest _ => ?_)
      (turns_starColons_of_forall_ne (by simp))
    -- the braces behind the dollar sign are a parameter of the first pass, the dollar sign is
    -- passed over
    have hdollar : ¬ Opens ['\x7b'] ('$' :: '\x7b' :: (name.text.toList ++ '\x7d' :: rest)) :=
      not_opens_of_ne (by decide)
    simpa [Segment.written, hspan] using starSpans_cons_of_not_opens (by simp) hdollar

def Segment.normal (style : Style) : Segment → String
  | .word w => lower w.text
  | .parameter _ => style.mark

theorem turns_written (style : Style) (segment : Segment) :
    Turns (fun cs => lowerChars (starParameters cs)) (segment.written style).toList
      (segment.normal style).toList := by
  cases segment with
  | word w =>
    refine Turns.comp keepsSlash_starParameters (turns_word w) ?_
    simpa [Segment.normal, lower] using turns_lowerChars w.text.toList
  | parameter name =>
    have hmark : lowerChars style.mark.toList = style.mark.toList := by
      cases style <;> decide
    have hlower := turns_lowerChars style.mark.toList
    rw [hmark] at hlower
    exact Turns.comp keepsSlash_starParameters (turns_parameter style name) hlower

theorem not_mem_normal (style : Style) (segment : Segment) :
    '/' ∉ (segment.normal style).toList := by
  cases segment with
  | word w =>
    rw [Segment.normal, lower, String.toList_ofList, Text.mem_lowerChars_iff (by decide)]
    exact w.not_mem (by decide)
  | parameter name =>
    rw [Segment.normal]
    cases style <;> decide

theorem written_ne_nil (style : Style) (segment : Segment) :
    (segment.written style).toList ≠ [] := by
  cases segment with
  | word w => exact w.ne_nil
  | parameter name => cases style <;> simp [Segment.written]

theorem not_mem_written (style : Style) (segment : Segment) :
    '/' ∉ (segment.written style).toList := by
  cases segment with
  | word w => exact w.not_mem (by decide)
  | parameter name =>
    have hname : '/' ∉ name.text.toList := name.not_mem (by decide)
    cases style <;> simpa [Segment.written] using hname

section Written

variable {segments : List Segment} (hne : segments ≠ []) (styles : Nat → Style)
include hne

theorem trimList_writtenPath (leading trailing : Nat) :
    trimList (· == '/') (writtenPath segments styles leading trailing).toList =
      (join "/" (segments.mapIdx fun i segment => segment.written (styles i))).toList := by
  have hpieces : ∀ s ∈ segments.mapIdx fun i segment => segment.written (styles i),
      s.toList ≠ [] ∧ ∀ c ∈ s.toList, (c == '/') = false := by
    intro s hs
    obtain ⟨i, hi, rfl⟩ := mem_mapIdx.1 hs
    exact ⟨written_ne_nil _ _, fun c hc => beq_eq_false_iff_ne.2 fun h => not_mem_written
      _ _ (h ▸ hc)⟩
  obtain ⟨hfull, hhead, hlast⟩ := Text.join_ends "/" (by simpa using hne) hpieces
  rw [writtenPath, String.toList_append, String.toList_append, append_assoc, slashes, slashes,
    String.toList_ofList, String.toList_ofList, Text.trimList_append_left (by simp),
    Text.trimList_of_ends hfull hhead hlast (by simp)]

theorem normalizePath_writtenPath (leading trailing : Nat) :
    normalizePath (writtenPath segments styles leading trailing) =
      join "/" (segments.mapIdx fun i segment => segment.normal (styles i)) := by
  have hpieces :
      List.Forall₂ (fun s s' => Turns (fun cs => lowerChars (starParameters cs)) s.toList s'.toList)
      (segments.mapIdx fun i segment => segment.written (styles i))
      (segments.mapIdx fun i segment => segment.normal (styles i)) := by
    rw [mapIdx_eq_zipIdx_map, mapIdx_eq_zipIdx_map, forall₂_map_left_iff, forall₂_map_right_iff,
      forall₂_same]
    exact fun x _ => turns_written (styles x.2) x.1
  rw [normalizePath_eq, trimList_writtenPath hne,
    rewriting_join (keepsSlash_starParameters.comp keepsSlash_lowerChars) hpieces,
      String.ofList_toList]

theorem splitChar_normalizePath (leading trailing : Nat) :
    splitChar '/' (normalizePath (writtenPath segments styles leading trailing)) =
      segments.mapIdx fun i segment => segment.normal (styles i) := by
  rw [normalizePath_writtenPath hne]
  refine Text.splitChar_join (by simpa using hne) fun s hs => ?_
  obtain ⟨i, hi, rfl⟩ := mem_mapIdx.1 hs
  exact not_mem_normal _ _

end Written

theorem Style.mark_eq (style : Style) : style.mark = if style = .template then "$*" else "*" := by
  cases style <;> rfl

/-- **Two of the three ways to mark a parameter are normalised alike.** Written in two ways, a path
has one normal form exactly if the same parameters are marked by a dollar sign and braces both
times; the segment of such a parameter keeps the dollar sign, and that of any other parameter is a
wildcard. -/
theorem parameter_styles_alike_iff {segments : List Segment} (hne : segments ≠ [])
    (styles styles' : Nat → Style) (leading trailing leading' trailing' : Nat) :
    (normalizePath (writtenPath segments styles leading trailing) =
        normalizePath (writtenPath segments styles' leading' trailing') ↔
      ∀ i name, segments[i]? = some (.parameter name) →
        (styles i = .template ↔ styles' i = .template)) ∧
    ∀ i name, segments[i]? = some (.parameter name) →
      (splitChar '/' (normalizePath (writtenPath segments styles leading trailing)))[i]? =
        some (if styles i = .template then "$*" else "*") := by
  have hmark {a b : Style} : a.mark = b.mark ↔ (a = .template ↔ b = .template) := by
    cases a <;> cases b <;> decide
  constructor
  · constructor
    · intro heq i name hi
      -- no segment has a slash in it, so equal paths have equal segments
      have hsplit := congrArg (splitChar '/') heq
      rw [splitChar_normalizePath hne, splitChar_normalizePath hne] at hsplit
      have hsegment := congrArg (·[i]?) hsplit
      simp only [getElem?_mapIdx, hi, Option.map_some, Segment.normal] at hsegment
      exact hmark.1 (Option.some.inj hsegment)
    · intro h
      rw [normalizePath_writtenPath hne, normalizePath_writtenPath hne]
      congr 1
      refine ext_getElem? fun i => ?_
      rw [getElem?_mapIdx, getElem?_mapIdx]
      cases hi : segments[i]? with
      | none => rfl
      | some segment =>
        cases segment with
        | word w => rfl
        | parameter name => exact congrArg some (hmark.2 (h i name hi))
  · intro i name hi
    rw [splitChar_normalizePath hne, getElem?_mapIdx, hi, ← Style.mark_eq]
    rfl

def userPath : List Segment :=
  [.word ⟨"users", by decide, all_eq_true.1 (by decide)⟩,
   .parameter ⟨"id", by decide, all_eq_true.1 (by decide)⟩]

theorem parameter_styles_alike_iff_userPath :
    writtenPath userPath (fun _ => .colon) 1 0 = "/users/:id" ∧
      writtenPath userPath (fun _ => .template) 1 0 = "/users/$\x7bid\x7d" ∧ userPath ≠ [] ∧
      normalizePath (writtenPath userPath (fun _ => .braces) 1 0) =
        normalizePath (writtenPath userPath (fun _ => .colon) 0 2) ∧
      normalizePath (writtenPath userPath (fun _ => .braces) 1 0) ≠
        normalizePath (writtenPath userPath (fun _ => .template) 1 0) := by
  have hne : userPath ≠ [] := cons_ne_nil _ _
  refine ⟨by decide +kernel, by decide +kernel, hne, ?_, fun heq => ?_⟩
  · exact (parameter_styles_alike_iff hne _ _ 1 0 0 2).1.2 fun i name _ => by decide
  · have hstyles := (parameter_styles_alike_iff hne _ _ 1 0 1 0).1.1 heq 1 _ rfl
    exact absurd hstyles (by decide)

end CodeAtlas.Bridge
