import CodeAtlas.Proofs.KeptNotes
import CodeAtlas.Proofs.Moments
import CodeAtlas.Proofs.WillingStore

/-!
# The working memory is a map with expiry

Notes are kept as points of a collection. A point has a number made from its key, a note is looked
up by the key in its payload, and its expiry is a text that is read again at every lookup. As long
as the store works and the keys in use have numbers of their own, none of this shows: after every
history the collection mirrors `contents`.
-/

namespace CodeAtlas.Memory

open Report CodeAtlas.Vector List

variable {c : Catalog} {notes : Notes} {s : Store} {key : String} {n : Kept} {now : Time}

/-! ## Entries

What a note looks like when it is stored, and that its dates are read back from that. -/

def Time.moment (t : Time) : Moment :=
  ⟨t.micros, some 0⟩

def Kept.expires (n : Kept) : Moment :=
  ⟨n.expiry, some 0⟩

def Kept.entry (key : String) (n : Kept) : Payload :=
  [("key", .str key), ("content", .str n.content), ("tags", .texts n.tags),
    ("source_files", .texts n.files),
    ("created_at", .str n.since.moment.toText), ("updated_at", .str n.time.moment.toText)] ++
    (if 0 < n.days then [("expires_at", .str n.expires.toText)] else [])

/-- The calendar reaches the moment at which the note expires. -/
def Kept.InCalendar (n : Kept) : Prop :=
  n.expiry < Moment.lastDay * Moment.day

theorem lookup_expires (key : String) (n : Kept) :
    (n.entry key).lookup "expires_at" = if 0 < n.days then some (.str n.expires.toText)
      else none := by
  unfold Kept.entry
  split <;> rfl

theorem Kept.expiry_nonneg (hdays : 0 < n.days) : 0 ≤ n.expiry := by
  have hday : Moment.day = 86400000000 := rfl
  have hstart := n.time.started
  rw [Kept.expiry, hday]
  omega

theorem parse_expires (hdays : 0 < n.days) (hend : n.InCalendar) :
    Moment.parse n.expires.toText = .ok n.expires :=
  Moment.parse_toText (Kept.expiry_nonneg hdays) hend

theorem toText_expires_ne (hdays : 0 < n.days) (hend : n.InCalendar) : n.expires.toText ≠ "" := by
  intro hempty
  have hparse := parse_expires hdays hend
  rw [hempty] at hparse
  cases hparse

theorem isExpired_entry (now : Time) (key : String) (hend : n.InCalendar) :
    isExpired now.moment (n.entry key) = .ok (!n.lives now) := by
  unfold isExpired
  rw [lookup_expires]
  by_cases hdays : 0 < n.days
  · have hbefore : n.expires.before? now.moment = some (decide (n.expiry < now.micros)) := by
      simp only [Moment.before?, Moment.minus?, Moment.instant, Kept.expires, Time.moment,
        Option.map_some, Option.some.injEq, decide_eq_decide]
      omega
    have hlives : n.lives now = !decide (n.expiry < now.micros) := by
      simp [Kept.lives, Int.not_le.2 hdays, ← decide_not]
    rw [if_pos hdays]
    simp [Json.isSomething, toText_expires_ne hdays hend, parse_expires hdays hend, hbefore, hlives]
  · rw [if_neg hdays]
    simp [Kept.lives, Int.not_lt.1 hdays]

theorem unexpired_eq_filter {α : Type} {now : Moment} {entry : α → Payload} {lives : α → Bool}
    {xs : List α} (h : ∀ x ∈ xs, isExpired now (entry x) = .ok (!lives x)) :
    unexpired now entry xs = .ok (xs.filter lives) := by
  have haux : ∀ ys : List α, List.filterAuxM (fun x => return !(← isExpired now (entry x))) xs ys =
      (.ok ((xs.filter lives).reverse ++ ys) : Except Failure (List α)) := by
    induction xs with
    | nil => intro ys; rfl
    | cons x rest ih =>
      intro ys
      rw [List.filterAuxM, h x mem_cons_self]
      show List.filterAuxM _ rest (cond (!!lives x) (x :: ys) ys) = _
      rw [ih (fun y hy => h y (mem_cons_of_mem x hy))]
      cases hx : lives x <;> simp [hx]
  unfold unexpired List.filterM
  rw [haux]
  simp [bind, Except.bind, pure, Except.pure]

theorem asTexts_texts (texts : List String) : asTexts (.texts texts) = .ok texts := by
  show (texts.map Json.str).mapM asText = .ok texts
  induction texts with
  | nil => rfl
  | cons t rest ih =>
    rw [map_cons, mapM_cons, ih]
    rfl

theorem commaField?_texts {entry : Payload} {field : String} {texts : List String}
    (h : entry.lookup field = some (.texts texts)) :
    ∃ shown, commaField? entry field = .ok shown := by
  unfold commaField?
  rw [h, Option.filter_some]
  split
  · next v hv =>
    split at hv
    · obtain rfl := Option.some.inj hv
      rw [asTexts_texts]
      exact ⟨_, rfl⟩
    · cases hv
  · exact ⟨none, rfl⟩

theorem noteLines_entry (key : String) (n : Kept) :
    ∃ lines, noteLines (n.entry key) = .ok lines := by
  have hkey : need (n.entry key) "key" = .ok (.str key) := rfl
  have hcontent : need (n.entry key) "content" = .ok (.str n.content) := rfl
  have hscore : (n.entry key).lookup "score" = none := by
    unfold Kept.entry
    split <;> rfl
  obtain ⟨tags, htags⟩ : ∃ tags, commaField? (n.entry key) "tags" = .ok tags :=
    commaField?_texts rfl
  obtain ⟨files, hfiles⟩ : ∃ files, commaField? (n.entry key) "source_files" = .ok files :=
    commaField?_texts rfl
  have hstored : startOfField (n.entry key) "created_at" "?" 19 =
    .ok (Text.cut 19 n.since.moment.toText) := rfl
  unfold noteLines
  rw [hkey, hscore, htags, hcontent, hfiles, hstored]
  exact ⟨_, rfl⟩

theorem recallReport_entry (question key : String) (n? : Option Kept) :
    ∃ text, recallReport question key (n?.toList.map (·.entry key)) = .ok text := by
  cases n? with
  | none => exact ⟨_, rfl⟩
  | some n =>
    obtain ⟨lines, hlines⟩ := noteLines_entry key n
    refine ⟨Text.trim (Text.join "\n" [lines].flatten), ?_⟩
    show (do return Text.trim (Text.join "\n" (← [n.entry key].mapM noteLines).flatten)) = _
    rw [mapM_cons, hlines]
    rfl

/-! ## Points

Keys have numbers, and the points of a collection stand under these. -/

/-- No other key under which there is a note has the number of this key. -/
def Notes.Separates (notes : Notes) (key : String) : Prop :=
  ∀ key' n, notes key' = some n → pointId key' = pointId key → key' = key

/-- The points are the notes, one for one, and have numbers of their own. -/
structure Mirrors (notes : Notes) (points : List Point) : Prop where
  nodup : (points.map (·.id)).Nodup
  sound : ∀ p ∈ points, ∃ key n, notes key = some n ∧ p.id = pointId key ∧ p.payload = n.entry key
  complete : ∀ key n, notes key = some n → ∃ p ∈ points, p.id = pointId key ∧
    p.payload = n.entry key

theorem holds_entry (key key' : String) (n : Kept) :
    Condition.holds ⟨"key", key⟩ (n.entry key') ↔ key' = key := by
  show (key' == key) ↔ key' = key
  exact beq_iff_eq

namespace Mirrors

variable {points : List Point}

theorem meeting_eq (h : Mirrors notes points) (key : String) {points' : List Point}
    (hperm : points'.Perm points) :
    (meeting [⟨"key", key⟩] points').map (·.payload) = (notes key).toList.map (·.entry key) := by
  have hmem : ∀ p ∈ meeting [⟨"key", key⟩] points', p ∈ points ∧ ∃ n, notes key = some n ∧
      p.id = pointId key ∧ p.payload = n.entry key := by
    intro p hp
    obtain ⟨hmem, hkey⟩ := mem_filter.1 hp
    rw [hperm.mem_iff] at hmem
    obtain ⟨key', n, hn, hid, hpayload⟩ := h.sound p hmem
    rw [all_cons, all_nil, Bool.and_true, hpayload, holds_entry] at hkey
    subst hkey
    exact ⟨hmem, n, hn, hid, hpayload⟩
  cases hn : notes key with
  | none =>
    have hnil : meeting [⟨"key", key⟩] points' = [] := by
      refine eq_nil_iff_forall_not_mem.2 fun p hp => ?_
      obtain ⟨-, n, hn', -⟩ := hmem p hp
      rw [hn] at hn'
      cases hn'
    rw [hnil]
    rfl
  | some n =>
    obtain ⟨p, hp, hid, hpayload⟩ := h.complete key n hn
    have hone : meeting [⟨"key", key⟩] points' = [p] := by
      have hnodup : points'.Nodup := hperm.nodup_iff.2 (h.nodup.of_map _)
      refine perm_singleton.1 ((perm_ext_iff_of_nodup (hnodup.filter _) (nodup_singleton p)).2 ?_)
      intro q
      rw [mem_singleton]
      constructor
      · -- they all have one number, and only one point has it
        intro hq
        obtain ⟨hq, -, -, hqid, -⟩ := hmem q hq
        exact inj_on_of_nodup_map h.nodup hq hp (hqid.trans hid.symm)
      · rintro rfl
        refine mem_filter.2 ⟨hperm.mem_iff.2 hp, ?_⟩
        rw [all_cons, all_nil, Bool.and_true, hpayload, holds_entry]
    rw [hone, map_singleton, hpayload]
    rfl

theorem erase (h : Mirrors notes points) (hkey : notes.Separates key) :
    Mirrors (Function.update notes key none) (points.filter (·.id != pointId key)) where
  nodup := h.nodup.sublist (filter_sublist.map _)
  sound := by
    intro p hp
    obtain ⟨hp, hid⟩ := mem_filter.1 hp
    obtain ⟨key', n, hn, hpid, hpayload⟩ := h.sound p hp
    have hne : key' ≠ key := by
      rintro rfl
      simp [hpid] at hid
    exact ⟨key', n, by rw [Function.update_of_ne hne, hn], hpid, hpayload⟩
  complete := by
    intro key' n hn
    have hne : key' ≠ key := by
      rintro rfl
      rw [Function.update_self] at hn
      cases hn
    rw [Function.update_of_ne hne] at hn
    obtain ⟨p, hp, hid, hpayload⟩ := h.complete key' n hn
    refine ⟨p, mem_filter.2 ⟨hp, ?_⟩, hid, hpayload⟩
    rw [hid, bne_iff_ne]
    exact fun heq => hne (hkey key' n hn heq)

theorem insert (h : Mirrors notes points) (hnone : notes key = none)
    (hnew : ∀ p ∈ points, p.id ≠ pointId key)
    {p : Point} (hid : p.id = pointId key) (hpayload : p.payload = n.entry key) :
    Mirrors (Function.update notes key (some n)) (points ++ [p]) where
  nodup := by
    rw [map_append, map_singleton, nodup_append]
    refine ⟨h.nodup, nodup_singleton _, ?_⟩
    intro i hi j hj
    obtain ⟨q, hq, rfl⟩ := mem_map.1 hi
    rw [mem_singleton.1 hj, hid]
    exact hnew q hq
  sound := by
    intro q hq
    rcases mem_append.1 hq with hq | hq
    · obtain ⟨key', n', hn', hid', hpayload'⟩ := h.sound q hq
      have hne : key' ≠ key := by
        rintro rfl
        rw [hnone] at hn'
        cases hn'
      exact ⟨key', n', by rw [Function.update_of_ne hne, hn'], hid', hpayload'⟩
    · rw [mem_singleton.1 hq]
      exact ⟨key, n, Function.update_self .., hid, hpayload⟩
  complete := by
    intro key' n' hn'
    by_cases hkey : key' = key
    · subst hkey
      rw [Function.update_self] at hn'
      obtain rfl := Option.some.inj hn'
      exact ⟨p, mem_append_right _ mem_cons_self, hid, hpayload⟩
    · rw [Function.update_of_ne hkey] at hn'
      obtain ⟨q, hq, hqid, hqpayload⟩ := h.complete key' n' hn'
      exact ⟨q, mem_append_left _ hq, hqid, hqpayload⟩

theorem put (h : Mirrors notes points) (hkey : notes.Separates key) {p : Point}
    (hid : p.id = pointId key) (hpayload : p.payload = n.entry key) :
    Mirrors (Function.update notes key (some n)) (Store.putPoint points p) := by
  have hrest := h.erase hkey
  have hnew := hrest.insert (n := n) (p := p) (Function.update_self ..)
    (fun q hq => bne_iff_ne.1 (mem_filter.1 hq).2) hid hpayload
  rw [Function.update_idem] at hnew
  rwa [Store.putPoint, hid]

end Mirrors

/-! ## The store

What the store does to its points is what the map does to its notes. -/

/-- The store works, and its collection of notes mirrors a map. -/
structure Serves (c : Catalog) (notes : Notes) (s : Store) : Prop where
  works : ∀ call i, s.fails call i = false
  mirrors : Mirrors notes ((s.collections.get? (c.name .memory)).getD [])

theorem Serves.run_call (h : Serves c notes s) (k : Call) :
    (call k).run.run s = (.ok (), { s with made := s.made ++ [k] }) :=
  Store.Willing.run_call h.works k

theorem unexpired_points (now : Time) (hend : ∀ n, notes key = some n → n.InCalendar)
    {found : List Point} (hfound : found.map (·.payload) = (notes key).toList.map (·.entry key)) :
    ∃ left, unexpired now.moment Point.payload found = .ok left ∧
      left.map (·.payload) = (notes.find now key).toList.map (·.entry key) := by
  cases hn : notes key with
  | none =>
    rw [hn] at hfound
    rw [map_eq_nil_iff.1 hfound, Notes.find, hn]
    exact ⟨[], rfl, rfl⟩
  | some n =>
    rw [hn] at hfound
    obtain ⟨p, rest, rfl, hp, hrest⟩ := map_eq_cons_iff.1 hfound
    obtain rfl := map_eq_nil_iff.1 hrest
    refine ⟨[p].filter fun _ => n.lives now, unexpired_eq_filter fun q hq => ?_, ?_⟩
    · rw [mem_singleton.1 hq, hp]
      exact isExpired_entry now key (hend n hn)
    · rw [Notes.find, hn, Option.filter_some]
      cases n.lives now with
      | false => rfl
      | true => exact congrArg (fun entry => [entry]) hp

/-- The lookup finds what the map finds. -/
theorem Serves.run_recallKey (h : Serves c notes s) (hkey : key ≠ "") (now : Time)
    (hend : ∀ n, notes key = some n → n.InCalendar) :
    ∃ s', (c.recallKey now.moment key).run.run s =
      (.ok ((notes.find now key).toList.map (·.entry key)), s') ∧ Serves c notes s' := by
  refine ⟨{ s with made := s.made ++ [.scroll] }, ?_, ⟨h.works, h.mirrors⟩⟩
  have hpoints : (meeting [⟨"key", key⟩] (s.points (c.name .memory))).map (·.payload) =
      (notes key).toList.map (·.entry key) := h.mirrors.meeting_eq key (mergeSort_perm _ _)
  -- there is one point at most, so that only one is asked for does not matter
  have hone : leading 1 (meeting [⟨"key", key⟩] (s.points (c.name .memory))) =
      meeting [⟨"key", key⟩] (s.points (c.name .memory)) := by
    have hlength := congrArg List.length hpoints
    rw [length_map, length_map] at hlength
    exact take_of_length_le (hlength ▸ Option.length_toList_le)
  obtain ⟨left, hleft, hpayloads⟩ := unexpired_points now hend hpoints
  unfold Catalog.recallKey
  rw [if_neg (by simpa using hkey), run_bind_ok (Store.Willing.run_scroll h.works _ _ _), hone,
    hleft, run_bind_ok (run_except _ _), hpayloads]
  rfl

theorem lookup_created (key : String) (n : Kept) :
    (n.entry key).lookup "created_at" = some (.str n.since.moment.toText) :=
  rfl

theorem notePayload_eq (key : String) (hend : n.InCalendar) :
    Catalog.notePayload ⟨key, n.content, n.tags, n.files, if 0 < n.days then n.expires.toText
      else ""⟩ (.str n.since.moment.toText) n.time.moment = n.entry key := by
  unfold Catalog.notePayload Kept.entry
  by_cases hdays : 0 < n.days
  · simp [hdays, toText_expires_ne hdays hend]
  · simp [hdays]

variable {content tags files : String} {days : Int}

theorem Serves.run_keepNote (h : Serves c notes s) (hkey : key ≠ "") (now : Time)
    (hends : ∀ n, notes key = some n → n.InCalendar) (hnumber : notes.Separates key)
    (hn : notes.keep now key content tags files days = n) (hend : n.InCalendar) :
    ∃ s', (c.keepNote now.moment ⟨key, n.content, n.tags, n.files,
        if 0 < n.days then n.expires.toText else ""⟩).run.run s = (.ok (), s') ∧
      Serves c (Function.update notes key (some n)) s' := by
  obtain ⟨s₁, hfound, h₁⟩ := h.run_recallKey hkey now hends
  have hcreated :
      ((((notes.find now key).toList.map (·.entry key)).head?.bind (·.lookup "created_at")).getD
        (.str now.moment.toText)) = .str n.since.moment.toText := by
    subst hn
    unfold Notes.keep
    cases notes.find now key with
    | none => rfl
    | some old => simp [lookup_created]
  have htime : n.time = now := by
    subst hn
    rfl
  unfold Catalog.keepNote
  rw [run_bind_ok hfound]
  dsimp only
  rw [hcreated, run_bind_ok (run_get s₁), upsert, ← htime, notePayload_eq key hend,
    run_bind_ok (h₁.run_call .upsert), run_modify]
  refine ⟨_, rfl, h₁.works, ?_⟩
  rw [Store.change, OrderedMap.get?_alter, if_pos rfl]
  exact h₁.mirrors.put hnumber rfl rfl

theorem Serves.run_forgetNote (h : Serves c notes s) (hkey : notes.Separates key) :
    ∃ s', (c.forgetNote key).run.run s = (.ok (), s') ∧ Serves c
      (Function.update notes key none) s' := by
  unfold Catalog.forgetNote deletePoint
  rw [run_bind_ok (h.run_call .delete), run_modify]
  refine ⟨_, rfl, ?_⟩
  split
  · refine ⟨h.works, ?_⟩
    rw [Store.change, OrderedMap.get?_alter, if_pos rfl]
    exact h.mirrors.erase hkey
  · next hmissing =>
    -- there is no such collection, so there was no note to take out
    have hnone : s.collections.get? (c.name .memory) = none := by
      simpa [Store.holds, OrderedMap.contains] using hmissing
    have hnil : (s.collections.get? (c.name .memory)).getD [] = [] := by rw [hnone]; rfl
    refine ⟨h.works, ?_⟩
    have hrest := h.mirrors.erase hkey
    rw [hnil] at hrest
    show Mirrors _ ((s.collections.get? (c.name .memory)).getD [])
    rwa [hnil]

/-! ## Requests

One lemma for each kind of request. -/

def Request.perform (c : Catalog) (now : Moment) : Request → ServiceM String
  | .keep key content tags files days => Tool.keepNote c now key content tags files days
  | .forget key => Tool.forgetNote c now key
  | .lookUp key question tag limit => Tool.recallNotes c now question key tag limit

/-- The answer to a request that fits the notes. -/
def Answers (notes : Notes) (e : Event) (text : String) : Prop :=
  match e.request with
  | .keep key _ tags _ days => text = keptReport key (commaParts tags) days
  | .forget key =>
    text = if (notes.find e.time key).isSome then "Deleted brain entry '" ++ key ++ "'."
      else "No brain entry found for key '" ++ key ++ "'."
  | .lookUp key question _ _ =>
    recallReport question key ((notes.find e.time key).toList.map (·.entry key)) = .ok text

/-- A history that can happen, on keys that the memory tells apart: time does not run backwards,
keys are not empty and have numbers of their own, and the calendar reaches every date at which a
note expires. -/
structure Possible (past : List Event) : Prop where
  inOrder : InOrder past
  named : ∀ e ∈ past, e.request.key ≠ ""
  distinct : ∀ e ∈ past, ∀ e' ∈ past, pointId e.request.key = pointId e'.request.key →
    e.request.key = e'.request.key
  expires : ∀ e ∈ past, e.time.micros + e.request.days * Moment.day < Moment.lastDay * Moment.day

variable {e : Event} {past : List Event}

theorem Possible.tail (h : Possible (e :: past)) : Possible past where
  inOrder := (pairwise_cons.1 h.inOrder).2
  named := fun e' he' => h.named e' (mem_cons_of_mem e he')
  distinct :=
    fun e' he' e'' he'' => h.distinct e' (mem_cons_of_mem e he') e'' (mem_cons_of_mem e he'')
  expires := fun e' he' => h.expires e' (mem_cons_of_mem e he')

theorem exists_keeps_of_contents (hn : contents past key = some n) : ∃ e ∈ past, e.Keeps key n := by
  obtain ⟨e, before, hsuffix, hkeeps, -⟩ := lastKept_iff.2 ⟨n.since, hn⟩
  exact ⟨e, hsuffix.mem mem_cons_self, hkeeps⟩

theorem Event.Keeps.key_eq (h : e.Keeps key n) : e.request.key = key := by
  obtain ⟨-, tags, files, hrequest, -⟩ := h
  rw [hrequest]
  rfl

theorem Event.Keeps.expiry_eq (h : e.Keeps key n) :
    n.expiry = e.time.micros + e.request.days * Moment.day := by
  obtain ⟨htime, tags, files, hrequest, -⟩ := h
  rw [hrequest, htime]
  rfl

theorem Possible.inCalendar (h : Possible past) (hn : contents past key = some n) :
    n.InCalendar := by
  obtain ⟨e, he, hkeeps⟩ := exists_keeps_of_contents hn
  rw [Kept.InCalendar, hkeeps.expiry_eq]
  exact h.expires e he

theorem Possible.separates (h : Possible (e :: past)) :
    (contents past).Separates e.request.key := by
  intro key n hn hid
  obtain ⟨e', he', hkeeps⟩ := exists_keeps_of_contents hn
  rw [← hkeeps.key_eq] at hid ⊢
  exact h.distinct e' (mem_cons_of_mem e he') e mem_cons_self hid

/-- A note is kept with the date at which it expires, where the calendar reaches that date. -/
theorem keepNote_eq (hend : (notes.keep now key content tags files days).InCalendar) :
    Tool.keepNote c now.moment key content tags files days = (do
      Services.onVectors (c.keepNote now.moment ⟨key, content, commaParts tags, commaParts files,
        if 0 < days then (notes.keep now key content tags files days).expires.toText else ""⟩)
      return keptReport key (commaParts tags) days) := by
  unfold Tool.keepNote
  dsimp only
  by_cases hdays : 0 < days
  · have hexpires :
        now.moment.addDays? days = some (notes.keep now key content tags files days).expires := by
      have hstart : 0 ≤ (notes.keep now key content tags files days).expiry :=
        Kept.expiry_nonneg hdays
      have hlt : (notes.keep now key content tags files days).expiry <
        Moment.lastDay * Moment.day := hend
      exact if_pos (Bool.and_eq_true_iff.2 ⟨decide_eq_true hstart, decide_eq_true hlt⟩)
    rw [if_pos hdays, if_pos hdays, hexpires]
    rfl
  · rw [if_neg hdays, if_neg hdays]
    rfl

/-- A request can rely on this: the notes so far are served, and the history may go on with the
request. -/
structure Ready (c : Catalog) (past : List Event) (e : Event) (services : Services) (s : Store) :
    Prop where
  reached : services.vectors = some s
  serves : Serves c (contents past) s
  possible : Possible (e :: past)

namespace Ready

variable {services : Services}

theorem run_recall (h : Ready c past e services s) (question tag : String) (limit : Int) :
    ∃ s', (Services.onVectors (c.recallNotes e.time.moment question e.request.key tag
      limit)).run.run services =
        (.ok (((contents past).find e.time e.request.key).toList.map (·.entry e.request.key)),
          { services with vectors := some s' }) ∧
      Serves c (contents past) s' := by
  have hkey : e.request.key ≠ "" := h.possible.named e mem_cons_self
  obtain ⟨s', hrun, hserves⟩ :=
    h.serves.run_recallKey hkey e.time fun n hn => h.possible.tail.inCalendar hn
  refine ⟨s', Services.run_onVectors h.reached ?_, hserves⟩
  rw [Catalog.recallNotes, if_neg (by simpa using hkey)]
  exact hrun

theorem keep {now : Time} (h : Ready c past ⟨now, .keep key content tags files days⟩ services s) :
    ∃ s', (Tool.keepNote c now.moment key content tags files days).run.run services =
        (.ok (keptReport key (commaParts tags) days), { services with vectors := some s' }) ∧
      Serves c (contents (⟨now, .keep key content tags files days⟩ :: past)) s' := by
  obtain ⟨n, hn⟩ : ∃ n, (contents past).keep now key content tags files days = n := ⟨_, rfl⟩
  have hend : n.InCalendar := by
    rw [← hn]
    exact h.possible.expires _ mem_cons_self
  have htool : Tool.keepNote c now.moment key content tags files days = (do
      Services.onVectors (c.keepNote now.moment ⟨key, n.content, n.tags, n.files,
        if 0 < n.days then n.expires.toText else ""⟩)
      return keptReport key (commaParts tags) days) := by
    subst hn
    exact keepNote_eq hend
  have hkey : key ≠ "" := h.possible.named _ mem_cons_self
  obtain ⟨s', hrun, hserves⟩ := h.serves.run_keepNote hkey now
    (fun n hn => h.possible.tail.inCalendar hn) h.possible.separates hn hend
  refine ⟨s', ?_, ?_⟩
  · rw [htool, run_bind_ok (Services.run_onVectors h.reached hrun)]
    rfl
  · rw [contents, Notes.after]
    dsimp only
    rw [hn]
    exact hserves

theorem forget {now : Time} (h : Ready c past ⟨now, .forget key⟩ services s) :
    ∃ s', (Tool.forgetNote c now.moment key).run.run services =
        (.ok (if ((contents past).find now key).isSome then "Deleted brain entry '" ++ key ++ "'."
          else "No brain entry found for key '" ++ key ++ "'."),
          { services with vectors := some s' }) ∧
      Serves c (contents (⟨now, .forget key⟩ :: past)) s' := by
  obtain ⟨s₁, hfound, hserves₁⟩ := h.run_recall "" "" 5
  dsimp only [Request.key] at hfound
  unfold Tool.forgetNote
  rw [run_bind_ok hfound, contents, Notes.after]
  dsimp only
  cases hfind : (contents past).find now key with
  | none => exact ⟨s₁, rfl, hserves₁⟩
  | some n =>
    have hnumber : (contents past).Separates key := h.possible.separates
    obtain ⟨s', hrun, hserves⟩ := hserves₁.run_forgetNote hnumber
    have hreached : ({ services with vectors := some s₁ } : Services).vectors = some s₁ := rfl
    refine ⟨s', ?_, hserves⟩
    show (do Services.onVectors (c.forgetNote key); return "Deleted brain entry '" ++ key ++ "'." :
      ServiceM String).run.run { services with vectors := some s₁ } = _
    rw [run_bind_ok (Services.run_onVectors hreached hrun)]
    rfl

theorem lookUp {question tag : String} {limit : Int} {now : Time}
    (h : Ready c past ⟨now, .lookUp key question tag limit⟩ services s) :
    ∃ text s', (Tool.recallNotes c now.moment question key tag limit).run.run services =
        (.ok text, { services with vectors := some s' }) ∧
      Serves c (contents past) s' ∧
      recallReport question key (((contents past).find now key).toList.map (·.entry key)) =
        .ok text := by
  obtain ⟨s', hfound, hserves⟩ := h.run_recall question tag (min limit Tool.mostRecalled)
  dsimp only [Request.key] at hfound
  obtain ⟨text, htext⟩ := recallReport_entry question key ((contents past).find now key)
  have hkey : key ≠ "" := h.possible.named _ mem_cons_self
  refine ⟨text, s', ?_, hserves, htext⟩
  unfold Tool.recallNotes
  rw [if_neg (by simp [hkey]), run_bind_ok hfound]
  exact congrArg (fun r => (r, _)) htext

/-- **The step.** A request succeeds, is answered as the notes say, and leaves the notes after it.
-/
theorem perform_run (h : Ready c past e services s) :
    ∃ text s', (e.request.perform c e.time.moment).run.run services =
        (.ok text, { services with vectors := some s' }) ∧
      Serves c (contents (e :: past)) s' ∧ Answers (contents past) e text := by
  obtain ⟨now, request⟩ := e
  cases request with
  | keep key content tags files days =>
    obtain ⟨s', hrun, hserves⟩ := h.keep
    exact ⟨_, s', hrun, hserves, rfl⟩
  | forget key =>
    obtain ⟨s', hrun, hserves⟩ := h.forget
    exact ⟨_, s', hrun, hserves, rfl⟩
  | lookUp key question tag limit =>
    obtain ⟨text, s', hrun, hserves, htext⟩ := h.lookUp
    exact ⟨text, s', hrun, hserves, htext⟩

end Ready

def servicesAfter (c : Catalog) (start : Services) : List Event → Services
  | [] => start
  | e :: past => ((e.request.perform c e.time.moment).run.run (servicesAfter c start past)).2

/-- The store can be reached, all its calls work, and there are no notes. -/
def Blank (c : Catalog) (services : Services) : Prop :=
  ∃ s, services.vectors = some s ∧ (∀ call i, s.fails call i = false) ∧
    s.points (c.name .memory) = []

theorem Blank.serves {services : Services} (h : Blank c services) :
    ∃ s, services.vectors = some s ∧ Serves c (contents []) s := by
  obtain ⟨s, hs, hworks, hpoints⟩ := h
  have hnil : (s.collections.get? (c.name .memory)).getD [] = [] := by
    have hperm :=
      mergeSort_perm ((s.collections.get? (c.name .memory)).getD []) fun p q : Point => p.id ≤ q.id
    rw [Store.points] at hpoints
    rw [hpoints] at hperm
    exact nil_perm.1 hperm
  refine ⟨s, hs, hworks, ?_⟩
  rw [hnil]
  refine ⟨nodup_nil, fun p hp => absurd hp not_mem_nil, fun key n hn => ?_⟩
  cases hn

/-- **The run.** After every history the store serves the notes of the map. -/
theorem serves_after {start : Services} (hblank : Blank c start) (hpossible : Possible past) :
    ∃ s, (servicesAfter c start past).vectors = some s ∧ Serves c (contents past) s := by
  induction past with
  | nil => exact hblank.serves
  | cons e past ih =>
    obtain ⟨s, hs, hserves⟩ := ih hpossible.tail
    obtain ⟨text, s', hrun, hserves', -⟩ := Ready.perform_run ⟨hs, hserves, hpossible⟩
    refine ⟨s', ?_, hserves'⟩
    rw [servicesAfter, hrun]

/-- **The working memory is a map with expiry.** Let a history start without notes, on a store that
works, and let it go on with a request. The request succeeds, and its answer is the one that the
notes so far ask for. A search by the key of the request finds one entry or none, whatever else it
asks for. It finds the note that the key was last kept with, if the key was not forgotten since and
the note has not expired; the entry then says since when the key has been found without a break. -/
theorem memory_refines_expiring_map {start : Services} (hblank : Blank c start)
    (hpossible : Possible (e :: past)) :
    (∃ text, ((e.request.perform c e.time.moment).run.run (servicesAfter c start past)).1 =
      .ok text ∧ Answers (contents past) e text) ∧
    (∀ question tag limit,
      ((Services.onVectors (c.recallNotes e.time.moment question e.request.key tag limit)).run.run
          (servicesAfter c start past)).1 =
        .ok (((contents past).find e.time e.request.key).toList.map (·.entry e.request.key))) ∧
    ∀ n, (contents past).find e.time e.request.key = some n ↔
      LastKept e.request.key n past ∧ n.lives e.time = true ∧
        FirstKept e.request.key n.since past := by
  obtain ⟨s, hs, hserves⟩ := serves_after hblank hpossible.tail
  have hready : Ready c past e (servicesAfter c start past) s := ⟨hs, hserves, hpossible⟩
  obtain ⟨hnow, horder⟩ := pairwise_cons.1 hpossible.inOrder
  refine ⟨?_, ?_, fun n => find_contents_iff horder hnow⟩
  · obtain ⟨text, s', hrun, -, htext⟩ := hready.perform_run
    exact ⟨text, by rw [hrun], htext⟩
  · intro question tag limit
    obtain ⟨s', hrun, -⟩ := hready.run_recall question tag limit
    rw [hrun]

/-- Whole hours from the start of year one. -/
def hours (h : Fin 80000000) : Time where
  micros := h.val * 3600000000
  started := by omega
  inCalendar := by
    have hend : Moment.lastDay * Moment.day = 315537897600000000 := by decide
    omega

def planHistory : List Event :=
  [⟨hours 17733300, .keep "plan" "third" "later, now" "src/plan" 1⟩,
    ⟨hours 17733290, .forget "other"⟩,
    ⟨hours 17733289, .keep "plan" "second" "" "" 1⟩, ⟨hours 17733240, .keep "plan" "first" "" "" 2⟩]

theorem possible_planHistory :
    Possible (⟨hours 17733324, .lookUp "plan" "" "" 5⟩ :: planHistory) where
  inOrder := by unfold InOrder; decide +kernel
  named := by decide +kernel
  distinct := by decide +kernel
  expires := by decide +kernel

/-- In the last moment of its day the plan is found: kept last at noon, and first eleven hours
before. -/
theorem memory_refines_expiring_map_plan :
    Blank ⟨"atlas"⟩ { vectors := some .unranked } ∧
    Possible (⟨hours 17733324, .lookUp "plan" "" "" 5⟩ :: planHistory) ∧
    ((Services.onVectors (Catalog.recallNotes ⟨"atlas"⟩ (hours 17733324).moment "" "plan" ""
      5)).run.run
        (servicesAfter ⟨"atlas"⟩ { vectors := some .unranked } planHistory)).1 =
      .ok [[("key", .str "plan"), ("content", .str "third"), ("tags", .texts ["later", "now"]),
        ("source_files", .texts ["src/plan"]), ("created_at", .str "2024-01-03T01:00:00+00:00"),
        ("updated_at", .str "2024-01-03T12:00:00+00:00"),
          ("expires_at", .str "2024-01-04T12:00:00+00:00")]] := by
  have hblank : Blank ⟨"atlas"⟩ { vectors := some .unranked } :=
    ⟨.unranked, rfl, fun _ _ => rfl, by simp [Store.points, Store.unranked, OrderedMap.get?]⟩
  exact ⟨hblank, possible_planHistory,
    ((memory_refines_expiring_map hblank possible_planHistory).2.1 "" "" 5).trans rfl⟩

end CodeAtlas.Memory
