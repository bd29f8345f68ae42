import CodeAtlas.Proofs.OrderedMap
import CodeAtlas.Proofs.Replies
import CodeAtlas.Proofs.Files
import CodeAtlas.Proofs.Running
import CodeAtlas.Summary.Enrich

/-!
# Summaries go to the symbols they were made for

A run over batches is told as a list of rounds: each has a batch, the reply to the request for it
and, where that reply gave nothing, the replies to the requests for its symbols one by one. The
rounds account for everything that a run does.
-/

namespace CodeAtlas.Summary

open List

variable {files : Files} {root : Path} {settings : EnrichmentSettings} {nodes : List Node}
  {asker : Asker}

/-! ## Requests and replies

A reply counts by what it has for each symbol; the model is asked one request after the other. -/

variable {reply : Reply} {m : Model} {content : String} {batches : List (List Candidate)}
  {c : Candidate}

namespace Reply

/-- The text of a reply. A failed request has none. -/
def text? : Reply → Option String
  | text content => some content
  | nothing => some ""
  | failed _ => none

/-- The reply to a request for `n` symbols has this summary at position `p`. -/
def Has (reply : Reply) (n p : Nat) (summary : String) : Prop :=
  ∃ content, reply.text? = some content ∧ (summariesOf content n)[p]? = some (some summary)

/-- The request was answered, and the answer has no summary for any of several symbols. -/
def IsUseless (reply : Reply) (n : Nat) : Prop :=
  1 < n ∧ ∃ content, reply.text? = some content ∧ ∀ s ∈ summariesOf content n, s = none

def summaries (reply : Reply) (n : Nat) : List (Option String) :=
  (reply.text?.map fun content => summariesOf content n).getD (List.replicate n none)

theorem exists_failed (h : reply.text? = none) : ∃ reason, reply = failed reason := by
  cases reply with
  | text | nothing => cases h
  | failed reason => exact ⟨reason, rfl⟩

theorem getElem?_summaries_iff {n p : Nat} {summary : String} :
    (reply.summaries n)[p]? = some (some summary) ↔ reply.Has n p summary := by
  unfold summaries Has
  cases reply.text? with
  | none => simp [getElem?_replicate]
  | some content => simp

def single (reply : Reply) : Option String :=
  (reply.summaries 1).head?.join

theorem single_eq_some_iff {summary : String} :
    reply.single = some summary ↔ reply.Has 1 0 summary := by
  rw [← getElem?_summaries_iff, ← List.head?_eq_getElem?, single, Option.join_eq_some_iff]

end Reply

namespace Model

def next (m : Model) : Reply :=
  m.replies.headD (.text "[]")

def asked (m : Model) (q : Request) : Model :=
  ⟨m.replies.tail, m.requests ++ [q]⟩

/-- The model was asked these requests one after the other, and gave these replies. -/
inductive Exchange : Model → List (Request × Reply) → Model → Prop
  | nil (m : Model) : Exchange m [] m
  | cons {m m' : Model} {rest : List (Request × Reply)} (q : Request)
      (h : Exchange (m.asked q) rest m') :
    Exchange m ((q, m.next) :: rest) m'

theorem Exchange.append {m₁ m₂ m₃ : Model} {xs ys : List (Request × Reply)} (h : Exchange m₁ xs m₂)
    (h' : Exchange m₂ ys m₃) : Exchange m₁ (xs ++ ys) m₃ := by
  induction h with
  | nil => exact h'
  | cons q _ ih => exact .cons q (ih h')

theorem ask_of_text (h : m.next.text? = some content) (q : Request) :
    m.ask q = (.ok content, m.asked q) := by
  obtain ⟨replies, requests⟩ := m
  rcases replies with _ | ⟨_ | _ | _, rest⟩ <;> cases h <;> rfl

theorem ask_of_failed {reason : String} (h : m.next = .failed reason) (q : Request) :
    m.ask q = (.error (.modelFailed reason), m.asked q) := by
  obtain ⟨replies, requests⟩ := m
  rcases replies with _ | ⟨reply, rest⟩
  · cases h
  · cases (show reply = .failed reason from h)
    rfl

end Model

/-! ## Rounds

What a round assigns is read off its replies alone, without the program. -/

/-- What was asked and answered for a batch. Its symbols are asked for one by one if and only if the
reply for the batch is useless. -/
structure Round where
  batch : List Candidate
  reply : Reply
  again : List Reply
  again_eq_nil : ¬reply.IsUseless batch.length → again = []
  length_again : reply.IsUseless batch.length → again.length = batch.length

namespace Round

variable {r : Round} {i : Nat} {text : String}

/-- The symbol at place `i` gets a summary: the one at its position in the reply for the batch, or
the one in the reply for the symbol alone. -/
inductive Gives (r : Round) : Nat → String → Prop
  | together {p : Nat} {c : Candidate} {text : String} (hc : r.batch[p]? = some c)
    (h : r.reply.Has r.batch.length p text) : Gives r c.place text
  | alone {p : Nat} {c : Candidate} {reply : Reply} {text : String} (hc : r.batch[p]? = some c)
    (ha : r.again[p]? = some reply) (h : reply.Has 1 0 text) : Gives r c.place text

def exchange (asker : Asker) (r : Round) : List (Request × Reply) :=
  (asker (r.batch.map (·.item)), r.reply) :: (r.batch.zip r.again).map fun x =>
    (asker [x.1.item], x.2)

def report? (r : Round) (number : Nat) : Option String :=
  match r.reply with
  | .failed reason => some ("Batch " ++ toString number ++ ": " ++ reason)
  | _ => none

def assigned (r : Round) : List (Nat × String) :=
  placed r.batch (if r.again.isEmpty then r.reply.summaries r.batch.length
    else r.again.map Reply.single)

end Round

theorem mem_placed_iff {batch : List Candidate} {ss : List (Option String)} {i : Nat}
    {text : String} :
    (i, text) ∈ placed batch ss ↔
      ∃ p : Nat, ∃ c : Candidate, batch[p]? = some c ∧ c.place = i ∧ ss[p]? = some (some text) := by
  unfold placed
  simp only [mem_filterMap, Option.map_eq_some_iff, Prod.mk.injEq, Prod.exists]
  constructor
  · rintro ⟨c, s, hmem, t, rfl, rfl, rfl⟩
    obtain ⟨p, hp⟩ := mem_iff_getElem?.1 hmem
    obtain ⟨hc, hs⟩ := getElem?_zip_eq_some.1 hp
    exact ⟨p, c, hc, rfl, hs⟩
  · rintro ⟨p, c, hc, rfl, hs⟩
    exact ⟨c, some text, mem_of_getElem? (getElem?_zip_eq_some.2 ⟨hc, hs⟩), text, rfl, rfl, rfl⟩

theorem placed_sublist (batch : List Candidate) (ss : List (Option String)) :
    ((placed batch ss).map Prod.fst).Sublist (batch.map (·.place)) := by
  induction batch generalizing ss with
  | nil => exact nil_sublist _
  | cons c batch ih =>
    rcases ss with _ | ⟨_ | s, ss⟩
    · exact nil_sublist _
    · exact (ih ss).cons _
    · exact (ih ss).cons_cons _

namespace Round

variable {r : Round} {i : Nat} {text : String}

theorem assigned_of_useless (h : r.reply.IsUseless r.batch.length) :
    r.assigned = placed r.batch (r.again.map Reply.single) := by
  have hsome : r.again.isEmpty = false := by
    rw [isEmpty_eq_false_iff, ← length_pos_iff, r.length_again h]
    exact Nat.zero_lt_of_lt h.1
  rw [assigned, hsome]
  rfl

theorem assigned_of_useful (h : ¬r.reply.IsUseless r.batch.length) :
    r.assigned = placed r.batch (r.reply.summaries r.batch.length) := by
  rw [assigned, r.again_eq_nil h]
  rfl

/-- What a round assigns is what its replies give. -/
theorem mem_assigned_iff : (i, text) ∈ r.assigned ↔ r.Gives i text := by
  by_cases h : r.reply.IsUseless r.batch.length
  · rw [assigned_of_useless h, mem_placed_iff]
    constructor
    · rintro ⟨p, c, hc, rfl, hs⟩
      rw [getElem?_map, Option.map_eq_some_iff] at hs
      obtain ⟨reply, ha, hs⟩ := hs
      exact .alone hc ha (Reply.single_eq_some_iff.1 hs)
    · rintro (⟨-, content, hcontent, hs⟩ | ⟨hc, ha, hs⟩)
      -- a useless reply has no summary at any position
      · obtain ⟨-, content', hcontent', hnone⟩ := h
        obtain rfl : content' = content := Option.some.inj (hcontent'.symm.trans hcontent)
        exact absurd (hnone _ (mem_of_getElem? hs)) (Option.some_ne_none _)
      · exact ⟨_, _, hc, rfl, by rw [getElem?_map, ha, Option.map_some,
          Reply.single_eq_some_iff.2 hs]⟩
  · rw [assigned_of_useful h, mem_placed_iff]
    constructor
    · rintro ⟨p, c, hc, rfl, hs⟩
      exact .together hc (Reply.getElem?_summaries_iff.1 hs)
    · rintro (⟨hc, hs⟩ | ⟨-, ha, -⟩)
      · exact ⟨_, _, hc, rfl, Reply.getElem?_summaries_iff.2 hs⟩
      · rw [r.again_eq_nil h] at ha
        cases ha

theorem report?_of_text (h : r.reply.text? = some content) (number : Nat) :
    r.report? number = none := by
  unfold report?
  cases hreply : r.reply with
  | text | nothing => rfl
  | failed => rw [hreply] at h; cases h

theorem Gives.exists_mem (h : r.Gives i text) : ∃ c ∈ r.batch, c.place = i := by
  cases h with
  | together hc | alone hc => exact ⟨_, mem_of_getElem? hc, rfl⟩

theorem not_gives_of_failed (h : r.reply.text? = none) : ¬r.Gives i text := by
  have huseful : ¬r.reply.IsUseless r.batch.length := by
    rintro ⟨-, content, hcontent, -⟩
    cases h.symm.trans hcontent
  rintro (⟨-, content, hcontent, -⟩ | ⟨-, ha, -⟩)
  · cases h.symm.trans hcontent
  · rw [r.again_eq_nil huseful] at ha
    cases ha

theorem assigned_of_failed (h : r.reply.text? = none) : r.assigned = [] :=
  eq_nil_iff_forall_not_mem.2 fun _ hmem => not_gives_of_failed h (mem_assigned_iff.1 hmem)

end Round

/-! ## One batch

The program makes one round for each batch, and asks for nothing else. -/

theorem placed_cons (c : Candidate) (batch : List Candidate) (s : Option String)
    (ss : List (Option String)) :
    placed (c :: batch) (s :: ss) = (s.map (c.place, ·)).toList ++ placed batch ss := by
  cases s <;> rfl

theorem Model.summarize_of_text (h : m.next.text? = some content) (items : List Item) :
    m.summarize asker items = (.ok (summariesOf content items.length), m.asked (asker items)) := by
  rw [Model.summarize, Model.ask_of_text h]
  rfl

theorem Model.summarize_of_failed {reason : String} (h : m.next = .failed reason)
    (items : List Item) :
    m.summarize asker items = (.error (.modelFailed reason), m.asked (asker items)) := by
  rw [Model.summarize, Model.ask_of_failed h]
  rfl

theorem Model.summarizeEach_cons (m : Model) (c : Candidate) (rest : List Candidate) :
    m.summarizeEach asker (c :: rest) =
      ((m.next.single.map (c.place, ·)).toList ++ ((m.asked (asker [c.item])).summarizeEach asker
        rest).1, ((m.asked (asker [c.item])).summarizeEach asker rest).2) := by
  rw [Model.summarizeEach]
  cases h : m.next.text? with
  | none =>
    obtain ⟨reason, hreason⟩ := Reply.exists_failed h
    rw [Model.summarize_of_failed hreason, hreason]
    rfl
  | some content =>
    have hsingle : m.next.single = (summariesOf content 1).head?.join := by
      rw [Reply.single, Reply.summaries, h]
      rfl
    obtain ⟨s, hs⟩ : ∃ s, summariesOf content 1 = [s] :=
      length_eq_one_iff.1 (length_summariesOf content 1)
    rw [Model.summarize_of_text h, hsingle]
    show (placed [c] (summariesOf content 1) ++ _, _) = _
    rw [hs]
    cases s <;> rfl

theorem exists_again (asker : Asker) (m : Model) (batch : List Candidate) :
    ∃ again m', again.length = batch.length ∧
      m.Exchange ((batch.zip again).map fun x => (asker [x.1.item], x.2)) m' ∧
      m.summarizeEach asker batch = (placed batch (again.map Reply.single), m') := by
  induction batch generalizing m with
  | nil => exact ⟨[], m, rfl, .nil m, rfl⟩
  | cons c batch ih =>
    obtain ⟨again, m', hlength, hexchange, hrun⟩ := ih (m.asked (asker [c.item]))
    refine ⟨m.next :: again, m', by rw [length_cons, hlength, length_cons], .cons _ hexchange, ?_⟩
    rw [Model.summarizeEach_cons, hrun, map_cons, placed_cons]

theorem isUseless_iff (h : reply.text? = some content) (n : Nat) :
    reply.IsUseless n ↔ ((summariesOf content n).all Option.isNone && decide (1 < n)) := by
  simp only [Reply.IsUseless, h, Option.some.injEq, exists_eq_left', Bool.and_eq_true, all_eq_true,
    Option.isNone_iff_eq_none, decide_eq_true_eq, and_comm]

/-- The step: what a batch does to a run is what some round says. -/
theorem exists_round (asker : Asker) (total number done : Nat) (batch : List Candidate)
    (run : Run) :
    ∃ (r : Round) (m' : Model), r.batch = batch ∧ run.model.Exchange (r.exchange asker) m' ∧
      run.batch asker total number done batch =
        ⟨run.found ++ r.assigned, run.errors ++ (r.report? number).toList,
          run.progress ++ [(done, total)], m'⟩ := by
  by_cases huseless : run.model.next.IsUseless batch.length
  · obtain ⟨-, content, hcontent, -⟩ := id huseless
    obtain ⟨again, m', hagain, hexchange, heach⟩ :=
      exists_again asker (run.model.asked (asker (batch.map (·.item)))) batch
    let r : Round := ⟨batch, run.model.next, again, fun h => absurd huseless h, fun _ => hagain⟩
    refine ⟨r, m', rfl, .cons _ hexchange, ?_⟩
    rw [Run.batch, Model.summarize_of_text hcontent, length_map,
      Round.report?_of_text (r := r) hcontent, Round.assigned_of_useless (r := r) huseless]
    dsimp only
    rw [if_pos ((isUseless_iff hcontent _).1 huseless), heach, Option.toList_none, append_nil]
  · let r : Round := ⟨batch, run.model.next, [], fun _ => rfl, fun h => absurd h huseless⟩
    have hexchange :
        run.model.Exchange (r.exchange asker) (run.model.asked (asker (batch.map (·.item)))) := by
      rw [Round.exchange, zip_nil_right]
      exact .cons _ (.nil _)
    refine ⟨r, _, rfl, hexchange, ?_⟩
    cases hcontent : run.model.next.text? with
    | none =>
      obtain ⟨reason, hreason⟩ := Reply.exists_failed hcontent
      rw [Run.batch, Model.summarize_of_failed hreason, Round.assigned_of_failed (r := r) hcontent,
        append_nil, Round.report?, show r.reply = .failed reason from hreason]
      rfl
    | some content =>
      rw [Run.batch, Model.summarize_of_text hcontent, length_map,
        Round.report?_of_text (r := r) hcontent,
        Round.assigned_of_useful (r := r) huseless, Reply.summaries,
          show r.reply.text? = some content from hcontent]
      dsimp only
      rw [if_neg (huseless ∘ (isUseless_iff hcontent _).2), Option.toList_none, append_nil]
      rfl

/-- How many symbols are done after each batch, if `done` are before the first. -/
def endings : Nat → List (List Candidate) → List Nat
  | _, [] => []
  | done, b :: rest => (done + b.length) :: endings (done + b.length) rest

/-- All batches, each with its round. -/
theorem exists_rounds (asker : Asker) (total number done : Nat) (batches : List (List Candidate))
    (run : Run) :
    ∃ (rounds : List Round) (m' : Model), rounds.map (·.batch) = batches ∧
      run.model.Exchange (rounds.flatMap (Round.exchange asker)) m' ∧
      run.batches asker total number done batches =
        ⟨run.found ++ rounds.flatMap Round.assigned,
          run.errors ++ (rounds.zipIdx number).filterMap fun x => x.1.report? x.2,
          run.progress ++ (endings done batches).map (·, total), m'⟩ := by
  induction batches generalizing number done run with
  | nil => exact ⟨[], run.model, rfl, .nil _, by simp [Run.batches, endings]⟩
  | cons b rest ih =>
    obtain ⟨r, m₁, hbatch, hfirst, hrun⟩ := exists_round asker total number (done + b.length) b run
    obtain ⟨rounds, m', hbatches, hrest, hruns⟩ := ih (number + 1) (done + b.length)
      (run.batch asker total number (done + b.length) b)
    rw [hrun] at hrest hruns
    refine ⟨r :: rounds, m', by rw [map_cons, hbatch, hbatches], hfirst.append hrest, ?_⟩
    rw [Run.batches, hrun, hruns, endings, zipIdx_cons, filterMap_cons]
    cases r.report? number <;> simp

theorem length_endings (done : Nat) (batches : List (List Candidate)) :
    (endings done batches).length = batches.length := by
  induction batches generalizing done with
  | nil => rfl
  | cons b rest ih => rw [endings, length_cons, ih, length_cons]

theorem getElem?_endings {done k : Nat} (hk : k < batches.length) :
    (endings done batches)[k]? = some (done + (batches.take (k + 1)).flatten.length) := by
  induction batches generalizing done k with
  | nil => cases hk
  | cons b rest ih =>
    cases k with
    | zero => simp [endings]
    | succ k =>
      rw [endings, getElem?_cons_succ, ih (Nat.lt_of_succ_lt_succ hk), take_succ_cons, flatten_cons,
        length_append, Nat.add_assoc]

theorem le_of_mem_endings {done e : Nat} (h : e ∈ endings done batches) : done ≤ e := by
  obtain ⟨k, hk⟩ := mem_iff_getElem?.1 h
  have hlt : k < batches.length := length_endings done batches ▸ (List.getElem?_eq_some_iff.1 hk).1
  rw [getElem?_endings hlt] at hk
  exact (Option.some.inj hk) ▸ Nat.le_add_right _ _

theorem pairwise_endings (done : Nat) (batches : List (List Candidate)) :
    (endings done batches).Pairwise (· ≤ ·) := by
  induction batches generalizing done with
  | nil => exact List.Pairwise.nil
  | cons b rest ih => exact List.Pairwise.cons (fun _ h => le_of_mem_endings h) (ih _)

/-- A symbol for which a summary is asked. -/
structure Chosen (files : Files) (root : Path) (settings : EnrichmentSettings) (nodes : List Node)
    (i : Nat) (n : Node) : Prop where
  here : nodes[i]? = some n
  kind : n.kind = .function ∨ n.kind = .method ∨ n.kind = .classDecl
  fresh : settings.skipIfSummary = true → n.summary = ""
  readable : snippet files root usualLines n ≠ ""
  early : 0 < settings.maxSymbols →
    ((nodes.take i).countP (asks settings) : Int) < settings.maxSymbols

theorem asks_iff {n : Node} : asks settings n ↔
    (n.kind = .function ∨ n.kind = .method ∨ n.kind = .classDecl) ∧
      (settings.skipIfSummary → n.summary = "") := by
  have hkind :
      isSummarized n.kind ↔ n.kind = .function ∨ n.kind = .method ∨ n.kind = .classDecl := by
    cases n.kind <;> decide
  rw [asks, Bool.and_eq_true, hkind]
  cases settings.skipIfSummary <;> simp

theorem mem_take_filter_zipIdx {α : Type} {p : α → Bool} {x : α} (xs : List α) (start j k : Nat) :
    (x, start + j) ∈ ((xs.zipIdx start).filter fun y => p y.1).take k ↔
      xs[j]? = some x ∧ p x ∧ (xs.take j).countP p < k := by
  induction xs generalizing start j k with
  | nil => simp
  | cons y ys ih =>
    have hlater (k : Nat) : (x, start) ∉ ((ys.zipIdx (start + 1)).filter fun y => p y.1).take k :=
      fun h =>
      Nat.not_succ_le_self start (le_snd_of_mem_zipIdx (mem_of_mem_filter (mem_of_mem_take h)))
    rw [zipIdx_cons, filter_cons]
    rcases j with _ | j
    · by_cases hp : p y
      · rcases k with _ | k
        · simp
        · have hfirst : x = y ↔ y = x ∧ p x := ⟨fun h => ⟨h.symm, h ▸ hp⟩, fun h => h.1.symm⟩
          simpa [hp, hlater k] using hfirst
      · have hfirst : y = x → ¬p x := fun h => h ▸ hp
        simpa [hp, hlater k] using fun h h' => absurd h' (hfirst h)
    · have hstep : start + (j + 1) = start + 1 + j := by omega
      have hne : start + 1 + j ≠ start := by omega
      rw [hstep]
      by_cases hp : p y
      · rcases k with _ | k
        · simp
        · simp [hp, ih, hne]
      · simp [hp, ih]

theorem mem_wanted_iff {n : Node} {i : Nat} : (n, i) ∈ wanted settings nodes ↔
    nodes[i]? = some n ∧ asks settings n ∧
      (0 < settings.maxSymbols →
        ((nodes.take i).countP (asks settings) : Int) < settings.maxSymbols) := by
  unfold wanted
  dsimp only
  split
  · next hmost =>
    have h :=
      mem_take_filter_zipIdx (p := asks settings) (x := n) nodes 0 i settings.maxSymbols.toNat
    rw [Nat.zero_add] at h
    rw [h]
    simp only [hmost, forall_const, Int.lt_toNat]
  · next hmost =>
    simp [hmost, mem_zipIdx_iff_getElem?]

theorem candidate?_eq_some_iff {x : Node × Nat} : candidate? files root x = some c ↔
    c = ⟨x.2, x.1, snippet files root usualLines x.1⟩ ∧ snippet files root usualLines x.1 ≠ "" := by
  unfold candidate?
  dsimp only
  split
  · next hempty => simp [String.isEmpty_iff.1 hempty]
  · next hsome =>
    have hreadable : snippet files root usualLines x.1 ≠ "" := by simpa using hsome
    exact ⟨fun h => ⟨(Option.some.inj h).symm, hreadable⟩, fun h => congrArg some h.1.symm⟩

/-- Which symbols are in the batches. -/
theorem mem_candidates_iff : c ∈ candidates files root settings nodes ↔
    Chosen files root settings nodes c.place c.item.node ∧
      c.item.source = snippet files root usualLines c.item.node := by
  rw [candidates, mem_filterMap]
  constructor
  · rintro ⟨⟨n, i⟩, hx, hc⟩
    obtain ⟨rfl, hreadable⟩ := candidate?_eq_some_iff.1 hc
    obtain ⟨hhere, hasks, hearly⟩ := mem_wanted_iff.1 hx
    obtain ⟨hkind, hfresh⟩ := asks_iff.1 hasks
    exact ⟨⟨hhere, hkind, hfresh, hreadable, hearly⟩, rfl⟩
  · rintro ⟨⟨hhere, hkind, hfresh, hreadable, hearly⟩, hsource⟩
    refine ⟨(c.item.node, c.place), mem_wanted_iff.2 ⟨hhere, asks_iff.2 ⟨hkind, hfresh⟩, hearly⟩,
      ?_⟩
    exact candidate?_eq_some_iff.2 ⟨by rw [← hsource], hreadable⟩

theorem pairwise_candidates :
    (candidates files root settings nodes).Pairwise fun c d => c.place < d.place := by
  have hindices : nodes.zipIdx.Pairwise fun x y => x.2 < y.2 := by
    rw [← pairwise_map (f := Prod.snd), zipIdx_map_snd]
    exact pairwise_lt_range'
  have hwanted : (wanted settings nodes).Sublist nodes.zipIdx := by
    unfold wanted
    dsimp only
    split
    · exact (take_sublist _ _).trans filter_sublist
    · exact filter_sublist
  refine (hindices.sublist hwanted).filterMap _ ?_
  intro x y hlt c hc d hd
  rw [(candidate?_eq_some_iff.1 hc).1, (candidate?_eq_some_iff.1 hd).1]
  exact hlt

section WithSummaries

variable {found : List (Nat × String)} {i : Nat} {text : String}

theorem getElem?_withSummaries_of_mem (hnodup : (found.map Prod.fst).Nodup)
    (h : (i, text) ∈ found) :
    (withSummaries nodes found)[i]? = nodes[i]?.map fun n => { n with summary := text } := by
  have hlookup : found.lookup i = some text :=
    (OrderedMap.mem_entries_iff (m := ⟨found⟩) hnodup).1 h
  rw [withSummaries, getElem?_mapIdx, hlookup]

theorem getElem?_withSummaries_of_not_mem (h : ∀ text, (i, text) ∉ found) :
    (withSummaries nodes found)[i]? = nodes[i]? := by
  have hlookup : found.lookup i = none := lookup_eq_none_iff.2 fun e he => by
    simpa using fun heq : i = e.1 => h e.2 (heq ▸ he)
  rw [withSummaries, getElem?_mapIdx, hlookup, Option.map_id']

end WithSummaries

/-! ## Accounts

Each batch has its round, and each summary comes from the round of its batch. -/

/-- Rounds that account for what a run made of the nodes. -/
structure Accounted (files : Files) (root : Path) (settings : EnrichmentSettings)
    (nodes : List Node) (asker : Asker)
    (rounds : List Round) (m m' : Model) (o : Outcome) : Prop where
  batches : rounds.map (·.batch) = pieces settings.batchSize.toNat (rounds.flatMap (·.batch))
  chosen : ∀ c, c ∈ rounds.flatMap (·.batch) ↔ Chosen files root settings nodes c.place
    c.item.node ∧ c.item.source = snippet files root usualLines c.item.node
  in_order : (rounds.flatMap (·.batch)).Pairwise fun c d => c.place < d.place
  exchange : m.Exchange (rounds.flatMap (Round.exchange asker)) m'
  length_nodes : o.nodes.length = nodes.length
  given : ∀ r ∈ rounds, ∀ i text, r.Gives i text → o.nodes[i]? = nodes[i]?.map fun n =>
    { n with summary := text }
  kept : ∀ i, (∀ r ∈ rounds, ∀ text, ¬r.Gives i text) → o.nodes[i]? = nodes[i]?
  changed_chosen : ∀ i, o.nodes[i]? ≠ nodes[i]? → ∃ n, Chosen files root settings nodes i n
  kept_of_failed : ∀ r ∈ rounds, r.reply.text? = none → ∀ c ∈ r.batch,
    o.nodes[c.place]? = nodes[c.place]?
  errors : o.errors = (rounds.zipIdx 1).filterMap fun x => x.1.report? x.2
  enriched : ∃ assigned : List (Nat × String), (assigned.map Prod.fst).Nodup ∧
    (∀ i text, (i, text) ∈ assigned ↔ ∃ r ∈ rounds, r.Gives i text) ∧ o.enriched = assigned.length
  length_progress : o.progress.length = rounds.length
  progress : ∀ k < rounds.length,
    o.progress[k]? = some (((rounds.take (k + 1)).flatMap (·.batch)).length,
      (rounds.flatMap (·.batch)).length)
  rising : o.progress.Pairwise fun x y => x.1 ≤ y.1
  complete : rounds ≠ [] →
    o.progress.getLast? = some ((rounds.flatMap (·.batch)).length,
      (rounds.flatMap (·.batch)).length)

def outcomeOf (nodes : List Node) (rounds : List Round) : Outcome :=
  ⟨withSummaries nodes (rounds.flatMap Round.assigned), (rounds.flatMap Round.assigned).length,
    (rounds.zipIdx 1).filterMap fun x => x.1.report? x.2,
    (endings 0 (rounds.map (·.batch))).map (·, (rounds.flatMap (·.batch)).length)⟩

section Account

variable {rounds : List Round}

/-- No symbol is in two batches, so none gets two summaries. -/
theorem nodup_assigned (h : (rounds.flatMap (·.batch)).Pairwise fun c d => c.place < d.place) :
    ((rounds.flatMap Round.assigned).map Prod.fst).Nodup := by
  have hplaces : ((rounds.flatMap (·.batch)).map (·.place)).Nodup :=
    pairwise_map.2 (h.imp fun hlt => Nat.ne_of_lt hlt)
  refine hplaces.sublist ?_
  rw [map_flatMap, map_flatMap]
  clear h hplaces
  induction rounds with
  | nil => exact nil_sublist _
  | cons r rounds ih => exact (placed_sublist r.batch _).append ih

theorem mem_flatMap_assigned_iff {i : Nat} {text : String} :
    (i, text) ∈ rounds.flatMap Round.assigned ↔ ∃ r ∈ rounds, r.Gives i text := by
  simp only [mem_flatMap, Round.mem_assigned_iff]

def Apart (r r' : Round) : Prop :=
  ∀ c ∈ r.batch, ∀ d ∈ r'.batch, c.place ≠ d.place

instance : Std.Symm Apart :=
  ⟨fun _ _ h c hc d hd => (h d hd c hc).symm⟩

/-- A symbol gets its summary from the round of its own batch. -/
theorem eq_of_gives (h : (rounds.flatMap (·.batch)).Pairwise fun c d => c.place < d.place)
    {r r' : Round} (hr : r ∈ rounds) (hr' : r' ∈ rounds) (hc : c ∈ r.batch) {text : String}
    (hgives : r'.Gives c.place text) : r' = r := by
  have hapart : rounds.Pairwise Apart :=
    (pairwise_flatMap.1 h).2.imp fun hlt c hc d hd => Nat.ne_of_lt (hlt c hc d hd)
  obtain ⟨d, hd, hplace⟩ := hgives.exists_mem
  by_contra hne
  exact hapart.forall hr' hr hne d hd c hc hplace

theorem flatMap_batch {size : Nat} {chosen : List Candidate} (hsize : 0 < size)
    (hbatches : rounds.map (·.batch) = pieces size chosen) : rounds.flatMap (·.batch) = chosen := by
  rw [flatMap_def, hbatches, flatten_pieces hsize]

/-- The outcome that is put together from the rounds is accounted for by them. -/
theorem accounted_outcomeOf {m' : Model} (hsize : 0 < settings.batchSize.toNat)
    (hbatches : rounds.map (·.batch) = pieces settings.batchSize.toNat
      (candidates files root settings nodes))
    (hexchange : m.Exchange (rounds.flatMap (Round.exchange asker)) m') :
    Accounted files root settings nodes asker rounds m m' (outcomeOf nodes rounds) := by
  have hall := flatMap_batch hsize hbatches
  have horder : (rounds.flatMap (·.batch)).Pairwise fun c d => c.place < d.place :=
    hall ▸ pairwise_candidates
  have hkept (i : Nat) (h : ∀ r ∈ rounds, ∀ text, ¬r.Gives i text) :
      (outcomeOf nodes rounds).nodes[i]? = nodes[i]? := by
    refine getElem?_withSummaries_of_not_mem fun text hmem => ?_
    obtain ⟨r, hr, hgives⟩ := mem_flatMap_assigned_iff.1 hmem
    exact h r hr text hgives
  have hlength : (outcomeOf nodes rounds).progress.length = rounds.length := by
    rw [outcomeOf, length_map, length_endings, length_map]
  have hprogress (k : Nat) (hk : k < rounds.length) : (outcomeOf nodes rounds).progress[k]? =
      some (((rounds.take (k + 1)).flatMap (·.batch)).length,
        (rounds.flatMap (·.batch)).length) := by
    rw [outcomeOf, getElem?_map, getElem?_endings (by rwa [length_map]), Nat.zero_add, ← map_take,
      ← flatMap_def, Option.map_some]
  exact {
    batches := by rw [hall, hbatches]
    chosen := fun c => by rw [hall, mem_candidates_iff]
    in_order := horder
    exchange := hexchange
    length_nodes := length_mapIdx
    given := fun r hr i text hgives =>
      getElem?_withSummaries_of_mem (nodup_assigned horder)
        (mem_flatMap_assigned_iff.2 ⟨r, hr, hgives⟩)
    kept := hkept
    changed_chosen := by
      intro i hchanged
      by_contra hnot
      refine hchanged (hkept i fun r hr text hgives => hnot ?_)
      obtain ⟨c, hc, rfl⟩ := hgives.exists_mem
      have hmem : c ∈ candidates files root settings nodes := hall ▸ mem_flatMap.2 ⟨r, hr, hc⟩
      exact ⟨c.item.node, (mem_candidates_iff.1 hmem).1⟩
    kept_of_failed := by
      intro r hr hfailed c hc
      refine hkept c.place fun r' hr' text hgives => ?_
      obtain rfl := eq_of_gives horder hr hr' hc hgives
      exact Round.not_gives_of_failed hfailed hgives
    errors := rfl
    enriched := ⟨_, nodup_assigned horder, fun _ _ => mem_flatMap_assigned_iff, rfl⟩
    length_progress := hlength
    progress := hprogress
    rising := pairwise_map.2 (pairwise_endings _ _)
    complete := by
      intro hne
      have hpos : 0 < rounds.length := length_pos_iff.2 hne
      rw [List.getLast?_eq_getElem?, hlength, hprogress _ (Nat.sub_lt hpos Nat.one_pos),
        Nat.sub_add_cancel hpos, take_length] }

end Account

theorem withSummaries_nil (nodes : List Node) : withSummaries nodes [] = nodes :=
  ext_getElem? fun _ => getElem?_withSummaries_of_not_mem fun _ => not_mem_nil

/-! ## A whole run

Before anything is asked, variables and files have to be read, which may fail. -/

/-- What a run looks at before it asks can be looked at: the variables of the project, and the files
of the symbols that come into question. -/
structure Legible (files : Files) (root : Path) (settings : EnrichmentSettings)
    (nodes : List Node) : Prop where
  environment : ∀ size, files.entry? (root.child ".env") ≠ some (.closed (.file size))
  sources : ∀ (i : Nat) (n : Node), nodes[i]? = some n → asks settings n = true →
    (0 < settings.maxSymbols → ((nodes.take i).countP (asks settings) : Int) <
      settings.maxSymbols) → files.fault? (root.child n.loc.file) = none

theorem load_eq_ok_iff {env env' : Environment} : env.load files root = .ok env' ↔
    (∀ size, files.entry? (root.child ".env") ≠ some (.closed (.file size))) ∧
      env' = env.withProject files root := by
  unfold Environment.load
  split
  · next size hentry => simp [hentry]
  · next hentry => simpa [eq_comm] using fun _ => hentry

theorem legible_iff : Legible files root settings nodes ↔
    (∀ size, files.entry? (root.child ".env") ≠ some (.closed (.file size))) ∧
      (wanted settings nodes).forM (fun x => files.look (root.child x.1.loc.file)) = .ok ⟨⟩ := by
  rw [forM_eq_ok_iff]
  constructor
  · rintro ⟨henv, hsources⟩
    refine ⟨henv, ?_⟩
    rintro ⟨n, i⟩ hx
    obtain ⟨hhere, hasks, hearly⟩ := mem_wanted_iff.1 hx
    exact Files.look_eq_ok_iff.2 (hsources i n hhere hasks hearly)
  · rintro ⟨henv, hall⟩
    refine ⟨henv, fun i n hhere hasks hearly => ?_⟩
    exact Files.look_eq_ok_iff.1 (hall (n, i) (mem_wanted_iff.2 ⟨hhere, hasks, hearly⟩))

theorem run_prepare_of_legible (h : Legible files root settings nodes) (env : Environment)
    (m : Model) :
    (prepare files root settings nodes).run.run (env, m) =
      (.ok (env.withProject files root), env.withProject files root, m) := by
  obtain ⟨henv, hlooks⟩ := legible_iff.1 h
  have hload : env.load files root = .ok (env.withProject files root) :=
    load_eq_ok_iff.2 ⟨henv, rfl⟩
  rw [prepare, run_bind_ok (run_get _), run_bind_ok (by rw [hload]; exact run_except _ _),
    run_bind_ok (run_modify _ _), run_bind_ok (by rw [run_forM_except, hlooks])]
  rfl

theorem run_prepare_of_not_legible (h : ¬ Legible files root settings nodes) (env : Environment)
    (m : Model) :
    ∃ f env', (prepare files root settings nodes).run.run (env, m) = (.error f, env', m) := by
  rw [prepare, run_bind_ok (run_get _)]
  cases hload : env.load files root with
  | error f => exact ⟨f, env, run_bind_error (run_except _ _)⟩
  | ok env' =>
    rw [run_bind_ok (run_except _ _), run_bind_ok (run_modify _ _)]
    cases hlook : (wanted settings nodes).forM (fun x => files.look (root.child x.1.loc.file)) with
    | error f => exact ⟨f, env', run_bind_error (by rw [run_forM_except, hlook])⟩
    | ok _ => exact absurd (legible_iff.2 ⟨(load_eq_ok_iff.1 hload).1, hlook⟩) h

/-- Without a symbol to ask for, nothing is asked. -/
theorem run_enrich_of_nil (hlegible : Legible files root settings nodes)
    (h : candidates files root settings nodes = []) (env : Environment) (m : Model) :
    (enrich files root settings nodes).run.run (env, m) =
      (.ok (outcomeOf nodes []), env.withProject files root, m) := by
  rw [enrich, run_bind_ok (run_prepare_of_legible hlegible env m), h, outcomeOf, flatMap_nil,
    withSummaries_nil]
  rfl

theorem run_enrich_of_ne_nil (hlegible : Legible files root settings nodes)
    (h : candidates files root settings nodes ≠ []) (hsize : 0 < settings.batchSize)
    (env : Environment) (m : Model) {run : Run}
    (hrun : Run.batches (askerFor settings (env.withProject files root))
      (candidates files root settings nodes).length 1 0
      (pieces settings.batchSize.toNat (candidates files root settings nodes)) { model := m } =
        run) :
    (enrich files root settings nodes).run.run (env, m) =
      (.ok ⟨withSummaries nodes run.found, run.found.length, run.errors, run.progress⟩,
        env.withProject files root, run.model) := by
  rw [enrich, run_bind_ok (run_prepare_of_legible hlegible env m)]
  dsimp only
  rw [if_neg (by simpa using h), if_neg (by omega), if_pos hsize]
  subst hrun
  rfl

/-- Summaries go to the symbols they were made for, whatever the model replies. Where a file that a
run has to look at first cannot be looked at, the run fails before it has asked for anything or
changed any symbol. -/
theorem enrich_accounted (files : Files) (root : Path) (settings : EnrichmentSettings)
    (hsize : 1 ≤ settings.batchSize) (nodes : List Node) (env : Environment) (m : Model) :
    (Legible files root settings nodes → ∃ rounds o m',
      (enrich files root settings nodes).run.run (env, m) =
        (.ok o, env.withProject files root, m') ∧
        Accounted files root settings nodes (askerFor settings (env.withProject files root)) rounds
          m m' o) ∧
    (¬ Legible files root settings nodes → ∃ f env',
      (enrich files root settings nodes).run.run (env, m) = (.error f, env', m)) := by
  have hpos : 0 < settings.batchSize.toNat := by omega
  constructor
  · intro hlegible
    by_cases hchosen : candidates files root settings nodes = []
    · exact ⟨[], _, m, run_enrich_of_nil hlegible hchosen env m,
        accounted_outcomeOf hpos (by rw [hchosen]; rfl) (.nil m)⟩
    · obtain ⟨rounds, m', hbatches, hexchange, hrun⟩ := exists_rounds
        (askerFor settings (env.withProject files root))
          (candidates files root settings nodes).length 1 0
        (pieces settings.batchSize.toNat (candidates files root settings nodes)) { model := m }
      refine ⟨rounds, outcomeOf nodes rounds, m', ?_, accounted_outcomeOf hpos hbatches hexchange⟩
      rw [run_enrich_of_ne_nil hlegible hchosen (by omega) env m hrun, outcomeOf, hbatches,
        flatMap_batch hpos hbatches]
      rfl
  · intro hlegible
    obtain ⟨f, env', hprepare⟩ := run_prepare_of_not_legible hlegible env m
    exact ⟨f, env', by rw [enrich, run_bind_error hprepare]⟩

def pairFiles : Files :=
  ⟨.dir [("a.py", .file "def f():\n    pass\ndef g():\n    pass\n")]⟩

def pairNode (name : String) (first last : Int) : Node :=
  { id := name, kind := .function, name := name, loc := ⟨"a.py", first, last⟩,
    language := "python" }

def pairNodes : List Node :=
  [pairNode "f" 1 2, pairNode "g" 3 4]

def pairSettings : EnrichmentSettings :=
  { batchSize := 2, maxSymbols := 2 }

/-- The reply for both functions is no list, and of the requests for each one the second fails. -/
def pairModel : Model :=
  ⟨[.text "Two.", .text "[\"F.\"]", .failed "down"], []⟩

theorem enrich_accounted_pair : 1 ≤ pairSettings.batchSize ∧
    Legible pairFiles ⟨true, []⟩ pairSettings pairNodes ∧ ∃ rounds o m',
    (enrich pairFiles ⟨true, []⟩ pairSettings pairNodes).run.run ({}, pairModel) =
      (.ok o, Environment.withProject {} pairFiles ⟨true, []⟩, m') ∧
    Accounted pairFiles ⟨true, []⟩ pairSettings pairNodes
      (askerFor pairSettings (Environment.withProject {} pairFiles ⟨true, []⟩)) rounds pairModel m'
        o ∧
    rounds ≠ [] := by
  have hlegible : Legible pairFiles ⟨true, []⟩ pairSettings pairNodes := by
    refine legible_iff.2 ⟨?_, rfl⟩
    intro size hentry
    cases hentry
  obtain ⟨rounds, o, m', hrun, haccount⟩ :=
    (enrich_accounted pairFiles ⟨true, []⟩ pairSettings (by decide) pairNodes {} pairModel).1
      hlegible
  refine ⟨by decide, hlegible, rounds, o, m', hrun, haccount, ?_⟩
  -- the second function is in a batch, so that there is a round
  have hsecond : Chosen pairFiles ⟨true, []⟩ pairSettings pairNodes 1 (pairNode "g" 3 4) :=
    ⟨rfl, .inl rfl, fun _ => rfl, by decide, fun _ => by decide⟩
  have hmem := (haccount.chosen ⟨1, pairNode "g" 3 4, snippet pairFiles ⟨true, []⟩ usualLines
    (pairNode "g" 3 4)⟩).2 ⟨hsecond, rfl⟩
  rintro rfl
  cases hmem

end CodeAtlas.Summary
