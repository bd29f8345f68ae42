import Mathlib.Order.Fin.Basic
import CodeAtlas.Console.Watching
import CodeAtlas.Proofs.OrderedMap
import CodeAtlas.Proofs.Running

/-!
# Files are handed over once they are quiet

A watch keeps a table of the files that were reported, each with the time of its latest report. At
every look it writes down what is reported, takes out the files that were quiet for long enough, and
hands these over to an update. Here the table is done away with: the looks alone say what is handed
over.

* **`get?_putOff_take`** is the invariant: before each look, the table holds the files that were
  reported and not handed over since. It is proved look by look, in the order in which a look works.
* **`followRule`** is a watch that hands over what a rule says of its looks. `follow_eq_followRule`
  says that the two watches are one and the same operation, whether they return or fail.
* **`exists_handedAt_iff`** — a file that is not reported any more is handed over if and only if
  some look comes late enough. Nothing is handed over when a watch ends.
-/

namespace CodeAtlas.Index

namespace Pending

variable {Time : Type} {table : Pending Time} {p : Path} {paths : List Path}

theorem note_cons (now : Time) (q : Path) :
    table.note now (q :: paths) = note (table.insert q now) now paths :=
  rfl

theorem get?_note (now : Time) :
    (table.note now paths).get? p = if p ∈ paths then some now else table.get? p := by
  induction paths generalizing table with
  | nil => simp [note]
  | cons q rest ih =>
    rw [note_cons, ih, OrderedMap.get?_insert]
    by_cases hrest : p ∈ rest <;> by_cases hq : p = q <;> simp [hrest, hq]

theorem nodup_keys_note (h : table.keys.Nodup) (now : Time) :
    (table.note now paths).keys.Nodup := by
  induction paths generalizing table with
  | nil => exact h
  | cons q rest ih =>
    rw [note_cons]
    exact ih (OrderedMap.nodup_keys_insert h now)

variable [Sub Time] [LE Time] [DecidableLE Time] {now wait : Time}

theorem nodup_keys_waiting (h : table.keys.Nodup) : (table.waiting now wait).keys.Nodup :=
  h.sublist (List.filter_sublist.map Prod.fst)

theorem nodup_ready (h : table.keys.Nodup) : (table.ready now wait).Nodup :=
  h.sublist (List.filter_sublist.map Prod.fst)

theorem get?_waiting (h : table.keys.Nodup) :
    (table.waiting now wait).get? p = (table.get? p).filter fun heard => !isQuiet now wait heard :=
  OrderedMap.get?_filter h fun heard => !isQuiet now wait heard

theorem mem_ready_iff (h : table.keys.Nodup) :
    p ∈ table.ready now wait ↔ ∃ heard, table.get? p = some heard ∧ wait ≤ now - heard := by
  unfold ready isQuiet
  simp only [List.mem_map, List.mem_filter, decide_eq_true_eq]
  constructor
  · rintro ⟨⟨q, heard⟩, ⟨hmem, hquiet⟩, rfl⟩
    exact ⟨heard, (OrderedMap.mem_entries_iff h).1 hmem, hquiet⟩
  · rintro ⟨heard, hget, hquiet⟩
    exact ⟨(p, heard), ⟨(OrderedMap.mem_entries_iff h).2 hget, hquiet⟩, rfl⟩

theorem waiting_of_ready_eq_nil (h : table.ready now wait = []) :
    table.waiting now wait = table := by
  have hnone : ∀ e ∈ table.entries, isQuiet now wait e.2 = false := by
    unfold ready at h
    rw [List.map_eq_nil_iff, List.filter_eq_nil_iff] at h
    intro e he
    simpa using h e he
  show (⟨table.entries.filter fun e => !isQuiet now wait e.2⟩ : OrderedMap Path Time) = table
  rw [List.filter_eq_self.2 fun e he => by rw [hnone e he]; rfl]

end Pending

/-- A look at a project: when it was, and which watched files were reported at it. -/
structure Look where
  time : Float
  reported : List Path

def putOff (wait : Float) (looks : List Look) : Pending Float :=
  looks.foldl (fun table l => (table.note l.time l.reported).waiting l.time wait) {}

def handedOver (wait : Float) (past : List Look) (now : Look) : List Path :=
  ((putOff wait past).note now.time now.reported).ready now.time wait

def handedAt (wait : Float) (looks : List Look) (k : Fin looks.length) : List Path :=
  handedOver wait (looks.take k) (looks.get k)

/-- The table at the look `k`, when the reports are written down and nothing is taken out yet. -/
def heardAt (wait : Float) (looks : List Look) (k : Fin looks.length) : Pending Float :=
  (putOff wait (looks.take k)).note (looks.get k).time (looks.get k).reported

variable {wait : Float} {looks : List Look} {p : Path} {j k : Fin looks.length}

theorem putOff_concat (past : List Look) (l : Look) :
    putOff wait (past ++ [l]) = ((putOff wait past).note l.time l.reported).waiting l.time wait :=
  List.foldl_append

theorem putOff_take_succ (k : Fin looks.length) :
    putOff wait (looks.take (k + 1)) = (heardAt wait looks k).waiting (looks.get k).time wait := by
  have htake : looks.take (k + 1) = looks.take k ++ [looks.get k] := by simp
  rw [htake, putOff_concat]
  rfl

theorem nodup_keys_putOff (past : List Look) : (putOff wait past).keys.Nodup := by
  induction past using List.reverseRecOn with
  | nil => exact List.nodup_nil
  | append_singleton past l ih =>
    rw [putOff_concat]
    exact Pending.nodup_keys_waiting (Pending.nodup_keys_note ih l.time)

theorem nodup_keys_heardAt (k : Fin looks.length) : (heardAt wait looks k).keys.Nodup :=
  Pending.nodup_keys_note (nodup_keys_putOff _) _

theorem nodup_handedAt (k : Fin looks.length) : (handedAt wait looks k).Nodup :=
  Pending.nodup_ready (nodup_keys_heardAt k)

theorem mem_handedAt_iff_get? : p ∈ handedAt wait looks k ↔
    ∃ t, (heardAt wait looks k).get? p = some t ∧ wait ≤ (looks.get k).time - t :=
  Pending.mem_ready_iff (nodup_keys_heardAt k)

/-! ## Reports and hand-overs, by the looks alone

These notions do not mention the table. -/

/-- The latest report of a file before the look `n` is at the look `j`. -/
structure LatestReport (looks : List Look) (p : Path) (j : Fin looks.length) (n : Nat) : Prop where
  lt : j < n
  reported : p ∈ (looks.get j).reported
  latest : ∀ i, j < i → i < n → p ∉ (looks.get i).reported

/-- From the look `j` on, a file was not handed over before the look `n`. -/
def Kept (wait : Float) (looks : List Look) (p : Path) (j : Fin looks.length) (n : Nat) : Prop :=
  ∀ i, j ≤ i → i < n → p ∉ handedAt wait looks i

theorem LatestReport.of_le {m n : Nat} (h : LatestReport looks p j n) (hj : j < m) (hmn : m ≤ n) :
    LatestReport looks p j m := by
  refine ⟨hj, h.reported, ?_⟩
  intro i hji him
  exact h.latest i hji (by omega)

theorem LatestReport.unique {i : Fin looks.length} {n : Nat} (hi : LatestReport looks p i n)
    (hj : LatestReport looks p j n) : i = j := by
  rcases lt_trichotomy i j with hlt | heq | hlt
  · exact absurd hj.reported (hi.latest j hlt hj.lt)
  · exact heq
  · exact absurd hi.reported (hj.latest i hlt hi.lt)

theorem latestReport_succ_of_reported (hp : p ∈ (looks.get k).reported) :
    LatestReport looks p j (k + 1) ↔ j = k := by
  have hk : LatestReport looks p k (k + 1) := by
    refine ⟨Nat.lt_succ_self k, hp, ?_⟩
    intro i hki hi
    omega
  constructor
  · intro hj
    exact hj.unique hk
  · rintro rfl
    exact hk

theorem latestReport_succ_of_not_reported (hp : p ∉ (looks.get k).reported) :
    LatestReport looks p j (k + 1) ↔ LatestReport looks p j k := by
  constructor
  · intro h
    have hne : j ≠ k := by
      rintro rfl
      exact hp h.reported
    have hlt : j < k := lt_of_le_of_ne (Nat.le_of_lt_succ h.lt) hne
    exact h.of_le hlt (Nat.le_succ k)
  · intro h
    refine ⟨Nat.lt_succ_of_lt h.lt, h.reported, ?_⟩
    intro i hji hi
    by_cases hik : i = k
    · rw [hik]
      exact hp
    · exact h.latest i hji (by omega)

theorem kept_succ (hj : j ≤ k) :
    Kept wait looks p j (k + 1) ↔ Kept wait looks p j k ∧ p ∉ handedAt wait looks k := by
  constructor
  · intro h
    exact ⟨fun i hji hi => h i hji (Nat.lt_succ_of_lt hi), h k hj (Nat.lt_succ_self k)⟩
  · rintro ⟨h, hk⟩ i hji hi
    by_cases hik : i = k
    · rw [hik]
      exact hk
    · exact h i hji (by omega)

theorem get?_heardAt_of_putOff {t : Float} (htable : (putOff wait (looks.take k)).get? p = some t ↔
      ∃ j, LatestReport looks p j k ∧ Kept wait looks p j k ∧ (looks.get j).time = t) :
    (heardAt wait looks k).get? p = some t ↔
      ∃ j, LatestReport looks p j (k + 1) ∧ Kept wait looks p j k ∧ (looks.get j).time = t := by
  unfold heardAt
  rw [Pending.get?_note]
  by_cases hp : p ∈ (looks.get k).reported
  · -- reported just now, so whatever came before does not count
    have hkept : Kept wait looks p k k := by
      intro i hki hik
      omega
    rw [if_pos hp, Option.some.injEq]
    simp only [latestReport_succ_of_reported hp, exists_eq_left, hkept, true_and]
  · rw [if_neg hp, htable]
    simp only [latestReport_succ_of_not_reported hp]

/-- **The table is a digest of the looks.** Before each look it holds the files that were reported
and not handed over since, each with the time of its latest report. -/
theorem get?_putOff_take {n : Nat} (hn : n ≤ looks.length) {t : Float} :
    (putOff wait (looks.take n)).get? p = some t ↔
    ∃ j, LatestReport looks p j n ∧ Kept wait looks p j n ∧ (looks.get j).time = t := by
  induction n generalizing t with
  | zero =>
    constructor
    · intro hnone
      cases hnone
    · rintro ⟨j, hlatest, -⟩
      exact absurd hlatest.lt (Nat.not_lt_zero _)
  | succ n ih =>
    obtain ⟨k, rfl⟩ : ∃ k : Fin looks.length, (k : Nat) = n := ⟨⟨n, hn⟩, rfl⟩
    have hheard {t : Float} := get?_heardAt_of_putOff (ih (t := t) (Nat.le_of_succ_le hn))
    rw [putOff_take_succ, Pending.get?_waiting (nodup_keys_heardAt k), Option.filter_eq_some_iff,
      hheard]
    -- what stands in the table at the look is handed over exactly if it is quiet, and stays
    -- otherwise
    have hdue {j : Fin looks.length} (hj : LatestReport looks p j (k + 1))
        (hkept : Kept wait looks p j k) :
        p ∈ handedAt wait looks k ↔ wait ≤ (looks.get k).time - (looks.get j).time := by
      rw [mem_handedAt_iff_get?, hheard.2 ⟨j, hj, hkept, rfl⟩]
      simp
    constructor
    · rintro ⟨⟨j, hlatest, hkept, rfl⟩, hquiet⟩
      refine ⟨j, hlatest, (kept_succ (Nat.le_of_lt_succ hlatest.lt)).2 ⟨hkept, ?_⟩, rfl⟩
      rw [hdue hlatest hkept]
      simpa [Pending.isQuiet] using hquiet
    · rintro ⟨j, hlatest, hkept, rfl⟩
      obtain ⟨hkept, hnot⟩ := (kept_succ (Nat.le_of_lt_succ hlatest.lt)).1 hkept
      refine ⟨⟨j, hlatest, hkept, rfl⟩, ?_⟩
      rw [hdue hlatest hkept] at hnot
      simpa [Pending.isQuiet] using hnot

/-- **What is handed over at a look** are the files whose latest report was long enough ago and
which were not handed over since. -/
theorem mem_handedAt_iff : p ∈ handedAt wait looks k ↔
    ∃ j, LatestReport looks p j (k + 1) ∧ wait ≤ (looks.get k).time - (looks.get j).time ∧
      Kept wait looks p j k := by
  have hheard {t : Float} : (heardAt wait looks k).get? p = some t ↔ _ :=
    get?_heardAt_of_putOff (get?_putOff_take (Nat.le_of_lt k.isLt))
  rw [mem_handedAt_iff_get?]
  constructor
  · rintro ⟨t, hget, hquiet⟩
    obtain ⟨j, hlatest, hkept, rfl⟩ := hheard.1 hget
    exact ⟨j, hlatest, hquiet, hkept⟩
  · rintro ⟨j, hlatest, hquiet, hkept⟩
    exact ⟨_, hheard.2 ⟨j, hlatest, hkept, rfl⟩, hquiet⟩

/-- A report starts the wait anew: the file of the first and the second look is handed over at the
fourth one, once. -/
example :
    let looks : List Look :=
      [⟨0, [⟨true, ["a"]⟩]⟩, ⟨1, [⟨true, ["a"]⟩]⟩, ⟨2, []⟩, ⟨2.5, []⟩, ⟨9, []⟩]
    List.ofFn (handedAt 1.5 looks) = [[], [], [], [⟨true, ["a"]⟩], []] := by
  decide +kernel

theorem exists_report_between {i : Fin looks.length} (hik : i < k) (hi : p ∈ handedAt wait looks i)
    (hk : p ∈ handedAt wait looks k) : ∃ j, i < j ∧ j ≤ k ∧ p ∈ (looks.get j).reported := by
  obtain ⟨j, hlatest, -, hkept⟩ := mem_handedAt_iff.1 hk
  refine ⟨j, ?_, Nat.le_of_lt_succ hlatest.lt, hlatest.reported⟩
  by_contra hji
  exact hkept i (not_lt.1 hji) hik hi

/-- **A file that is not reported any more is handed over if and only if some look comes late
enough.** -/
theorem exists_handedAt_iff (hlast : LatestReport looks p j looks.length) :
    (∃ k, j ≤ k ∧ p ∈ handedAt wait looks k) ↔ ∃ k, j ≤ k ∧
      wait ≤ (looks.get k).time - (looks.get j).time := by
  have hlatest {k : Fin looks.length} (hjk : j ≤ k) : LatestReport looks p j (k + 1) :=
    hlast.of_le (Nat.lt_succ_of_le hjk) k.isLt
  constructor
  · rintro ⟨k, hjk, hk⟩
    obtain ⟨i, hi, hquiet, -⟩ := mem_handedAt_iff.1 hk
    rw [hi.unique (hlatest hjk)] at hquiet
    exact ⟨k, hjk, hquiet⟩
  · rintro ⟨k, hjk, hquiet⟩
    -- if it were not handed over before the look `k`, it would be due there
    by_contra hnone
    push Not at hnone
    exact hnone k hjk (mem_handedAt_iff.2 ⟨j, hlatest hjk, hquiet, fun i hji _ => hnone i hji⟩)

def Watcher.handOver (w : Watcher) (paths : List Path) : UpdateM (Option Update) :=
  if paths.isEmpty then pure none else some <$> update w.root w.config w.catalog paths

theorem step_eq_handOver (w : Watcher) (past : List Look) (now : Look) :
    w.step (putOff w.wait past) now.time now.reported =
      (fun u? => (putOff w.wait (past ++ [now]), u?)) <$> w.handOver
        (handedOver w.wait past now) := by
  rw [putOff_concat]
  unfold Watcher.step Watcher.handOver handedOver
  dsimp only
  split
  · next hnone =>
    rw [Pending.waiting_of_ready_eq_nil (List.isEmpty_iff.1 hnone)]
    simp
  · simp

end CodeAtlas.Index

namespace CodeAtlas.Console

open Index

/-! ## A watch as an operation

The loop is told by induction on the looks that are still to come. -/

def Tick.look (t : Tick) (w : Watcher) (h : Host) : Except Failure Look :=
  (watched w.rules h.files w.root t.reported).map fun reported => ⟨t.time, reported⟩

theorem liftM_ok_bind {α β : Type} (a : α) (f : α → ConsoleM β) :
    ((liftM (Except.ok a : Except Failure α) : ConsoleM α) >>= f) = f a :=
  rfl

/-- A watch that keeps its looks in place of a table. At each look it hands over what a rule says,
by the looks before it and the look itself. It gives its looks when it ends. -/
def followRule (w : Watcher) (rule : List Look → Look → List Path) :
    List Tick → (number : Nat) → List Look → Tracked → ConsoleM (List Look)
  | [], _, past, _ => pure past
  | t :: rest, number, past, tracked => do
    modify fun c => { c with host := t.change c.host }
    if t.interrupted then return past
    let c ← get
    let now ← t.look w c.host
    let (r, tracked, h) := (w.handOver (rule past now)).run.run (tracked, c.host)
    set { c with host := h }
    match r with
    | .error f => throw f
    | .ok u? =>
      if let some u := u? then say (updateLine w.catalog.isSome (number + 1) u)
      if t.last then return past ++ [now]
      followRule w rule rest (number + u?.toList.length) (past ++ [now]) tracked

/-- **A watch with a table is a watch with its looks.** -/
theorem follow_eq_followRule (w : Watcher) (ticks : List Tick) (number : Nat) (past : List Look)
    (tracked : Tracked) :
    follow w ticks number (putOff w.wait past) tracked =
      discard (followRule w (handedOver w.wait) ticks number past tracked) := by
  induction ticks generalizing number past tracked with
  | nil => rfl
  | cons t rest ih =>
    rw [follow, followRule, discard_bind]
    refine bind_congr fun _ => ?_
    dsimp only
    cases t.interrupted with
    | true => rfl
    | false =>
      rw [if_neg Bool.false_ne_true, if_neg Bool.false_ne_true, discard_bind]
      refine bind_congr fun c => ?_
      rcases hreported : watched w.rules c.host.files w.root t.reported with f | reported
      · -- a path could not be looked at, and both watches fail
        rw [Tick.look, hreported]
        rfl
      rw [Tick.look, hreported, Except.map, liftM_ok_bind, liftM_ok_bind,
        step_eq_handOver w past ⟨t.time, reported⟩, run_map]
      rcases (w.handOver (handedOver w.wait past ⟨t.time, reported⟩)).run.run (tracked, c.host) with
        ⟨f | u?, tracked', h⟩
      · -- the update failed, and so do both watches
        rfl
      · show (set _ >>= fun _ => _) = discard (set _ >>= fun _ => _)
        rw [discard_bind]
        refine bind_congr fun _ => ?_
        dsimp only [Except.map]
        -- from here on the table is that of one look more, and the induction hypothesis applies
        cases u? with
        | none =>
          cases t.last with
          | true => rfl
          | false => exact ih _ _ _
        | some u =>
          dsimp only
          rw [discard_bind]
          refine bind_congr fun _ => ?_
          cases t.last with
          | true => rfl
          | false => exact ih _ _ _

/-- **A watch hands over exactly the quiet files.** It is the watch that goes by a rule: at the look
`k` it hands over the files whose latest report is at some look `j` up to `k`, with enough time
between the two, and which were not handed over from `j` on; where there is no such file, no update
is made. So no file is handed over twice without a report of it in between. -/
theorem follow_hands_over_quiet (w : Watcher) :
    (∀ ticks number tracked,
      follow w ticks number {} tracked = discard
        (followRule w (handedOver w.wait) ticks number [] tracked)) ∧
    ∀ (looks : List Look) (k : Fin looks.length),
      (handedOver w.wait (looks.take k) (looks.get k)).Nodup ∧
      (∀ p, p ∈ handedOver w.wait (looks.take k) (looks.get k) ↔ ∃ j,
        LatestReport looks p j (k + 1) ∧ w.wait ≤ (looks.get k).time - (looks.get j).time ∧
        ∀ i, j ≤ i → i < k → p ∉ handedOver w.wait (looks.take i) (looks.get i)) ∧
      ∀ p i, i < k → p ∈ handedOver w.wait (looks.take i) (looks.get i) →
        p ∈ handedOver w.wait (looks.take k) (looks.get k) → ∃ j, i < j ∧ j ≤ k ∧
          p ∈ (looks.get j).reported := by
  refine ⟨fun ticks number tracked => follow_eq_followRule w ticks number [] tracked,
    fun looks k => ?_⟩
  refine ⟨nodup_handedAt k, fun p => mem_handedAt_iff, ?_⟩
  intro p i hik hi hk
  exact exists_report_between hik hi hk

/-- **A watch loses nothing exactly where late enough looks come.** Take any watch that returned,
and the looks that it made. A file is handed over at or after its last report if and only if one of
the looks from this report on comes as long after it as files must be quiet. -/
theorem follow_loses_nothing_iff {w : Watcher} {ticks : List Tick} {number : Nat}
    {tracked : Tracked} {c c' : Console}
    (hrun : (follow w ticks number {} tracked).run.run c = (.ok (), c')) :
    ∃ looks, (followRule w (handedOver w.wait) ticks number [] tracked).run.run c =
      (.ok looks, c') ∧ ∀ p j, LatestReport looks p j looks.length →
        ((∃ k, j ≤ k ∧ p ∈ handedAt w.wait looks k) ↔
          ∃ k, j ≤ k ∧ w.wait ≤ (looks.get k).time - (looks.get j).time) := by
  have hrule := follow_eq_followRule w ticks number [] tracked
  obtain ⟨looks, hlooks⟩ := run_discard_eq_ok (hrule ▸ hrun)
  exact ⟨looks, hlooks, fun p j hlast => exists_handedAt_iff hlast⟩

def stoppedPath : Path := ⟨true, ["p", "a.js"]⟩

def stoppedWatch : Watcher where
  root := ⟨true, ["p"]⟩
  config := {}
  rules := ⟨⟨true, ["p"]⟩, []⟩

def stoppedTick : Tick where
  time := 1
  reported := [stoppedPath]
  last := true

def stoppedConsole : Console where
  host := { files := ⟨.dir [("p", .dir [("a.js", .file "")])]⟩ }

theorem follow_loses_nothing_iff_stopped : ∃ looks c',
    (follow stoppedWatch [stoppedTick] 0 {} {}).run.run stoppedConsole = (.ok (), c') ∧
      (followRule stoppedWatch (handedOver stoppedWatch.wait) [stoppedTick] 0 [] {}).run.run
        stoppedConsole = (.ok looks, c') ∧
      ∃ j, LatestReport looks stoppedPath j looks.length ∧
        ¬ ∃ k, j ≤ k ∧ stoppedPath ∈ handedAt stoppedWatch.wait looks k := by
  have hrun : (follow stoppedWatch [stoppedTick] 0 {} {}).run.run stoppedConsole =
    (.ok (), stoppedConsole) := rfl
  have hlook : (followRule stoppedWatch (handedOver stoppedWatch.wait) [stoppedTick] 0 []
      {}).run.run stoppedConsole = (.ok [⟨1, [stoppedPath]⟩], stoppedConsole) := rfl
  obtain ⟨looks, hlooks, hiff⟩ := follow_loses_nothing_iff hrun
  obtain rfl : [⟨1, [stoppedPath]⟩] = looks :=
    Except.ok.inj (Prod.mk.inj (hlook.symm.trans hlooks)).1
  have hlast : LatestReport [⟨1, [stoppedPath]⟩] stoppedPath ⟨0, Nat.one_pos⟩ 1 :=
    ⟨Nat.one_pos, List.mem_singleton.2 rfl, fun i hi hi' => by omega⟩
  refine ⟨_, _, hrun, hlooks, ⟨0, Nat.one_pos⟩, hlast, ?_⟩
  rw [hiff stoppedPath _ hlast]
  -- there is one look only, and it is not later than itself
  rintro ⟨k, -, hquiet⟩
  have hk : k = ⟨0, Nat.one_pos⟩ := Fin.ext (Nat.lt_one_iff.1 k.isLt)
  rw [hk] at hquiet
  have hnot : ¬ (1.5 : Float) ≤ 1 - 1 := by decide +kernel
  exact hnot hquiet

end CodeAtlas.Console
