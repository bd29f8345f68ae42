import Mathlib.Data.List.Perm.Basic
import CodeAtlas.KeyValue.Export
import CodeAtlas.Proofs.Leading
import CodeAtlas.Proofs.OrderedMap
import CodeAtlas.Proofs.Running

/-!
# Exports account for every function

Of the functions of a project, some have keys that the store refuses, some are lost with a pipe that
breaks, and all others are written. `Store.Continues` says what every call on the way leaves as it
was. Erasing page after page (`run_flushFrom`) and writing batch after batch (`wrote_exportBatches`)
are described relative to it, and `exportTo_accounts` puts them together.
-/

namespace CodeAtlas.KeyValue

open List
open Text (startsWith)

/-- The connection stayed open, and the store goes wrong as it did before. -/
structure Store.Continues (s s' : Store) : Prop where
  calls : ∃ made, s'.calls = s.calls ++ made ∧ Call.close ∉ made
  refused : s'.refused = s.refused
  broken : s'.broken = s.broken
  page : s'.page = s.page
  closeFault : s'.closeFault = s.closeFault
  getFault : s'.getFault = s.getFault

namespace Store.Continues

variable {s s' s'' : Store}

theorem refl (s : Store) : s.Continues s :=
  ⟨⟨[], (append_nil _).symm, not_mem_nil⟩, rfl, rfl, rfl, rfl, rfl⟩

theorem trans (first : s.Continues s') (second : s'.Continues s'') : s.Continues s'' := by
  obtain ⟨made, hmade, hopen⟩ := first.calls
  obtain ⟨more, hmore, hstill⟩ := second.calls
  refine ⟨⟨made ++ more, ?_, ?_⟩, second.refused.trans first.refused,
    second.broken.trans first.broken,
    second.page.trans first.page, second.closeFault.trans first.closeFault,
      second.getFault.trans first.getFault⟩
  · rw [hmore, hmade, append_assoc]
  · rw [mem_append]
    exact not_or.2 ⟨hopen, hstill⟩

theorem record {c : Call} (hc : c ≠ .close) : s.Continues (s.record c) := by
  refine ⟨⟨[c], rfl, ?_⟩, rfl, rfl, rfl, rfl, rfl⟩
  rw [mem_singleton]
  exact hc.symm

theorem delete (keys : List String) : s.Continues (s.delete keys) :=
  have hrecord : s.Continues (s.record (.delete keys)) := record nofun
  ⟨hrecord.calls, rfl, rfl, rfl, rfl, rfl⟩

end Store.Continues

/-! ## Erasing the keys of an earlier export

The induction is on the rounds that are allowed, which are more than the keys. -/

/-- Keys that start with a text were erased, and nothing else was. -/
structure Store.Erased (start : String) (s s' : Store) : Prop extends s.Continues s' where
  executed : s'.executed = s.executed
  get? : ∀ key, startsWith key start = false → s'.data.get? key = s.data.get? key

variable {look : Nat → StoreM (Nat × List String)} {base : Store} {k : Nat}
  {xs : List (List Node × Nat)} {done done' : Exported} {nodes : List Node}

namespace Store

variable {start : String} {s s' s'' : Store}

theorem mem_keysWith {key : String} :
    key ∈ s.keysWith start ↔ key ∈ s.data.keys ∧ startsWith key start := by
  rw [keysWith, mem_mergeSort, mem_filter]

theorem length_keysWith :
    (s.keysWith start).length = (s.data.keys.filter (startsWith · start)).length :=
  length_mergeSort _

theorem get?_of_keysWith_eq_nil (hnone : s.keysWith start = []) {key : String}
    (hkey : startsWith key start) : s.data.get? key = none := by
  apply OrderedMap.get?_eq_none_of_not_mem_keys
  intro hmem
  have : key ∈ s.keysWith start := mem_keysWith.2 ⟨hmem, hkey⟩
  rw [hnone] at this
  exact not_mem_nil this

theorem Erased.trans (first : Erased start s s') (second : Erased start s' s'') :
    Erased start s s'' where
  toContinues := first.toContinues.trans second.toContinues
  executed := second.executed.trans first.executed
  get? key hkey := (second.get? key hkey).trans (first.get? key hkey)

theorem erased_delete {keys : List String} (hkeys : keys ⊆ s.keysWith start) :
    Erased start s (s.delete keys) where
  toContinues := .delete keys
  executed := rfl
  get? key hkey := by
    have hkept : key ∉ keys := by
      intro hmem
      have hstarts := (mem_keysWith.1 (hkeys hmem)).2
      rw [hkey] at hstarts
      exact Bool.false_ne_true hstarts
    show (keys.foldl OrderedMap.erase s.data).get? key = s.data.get? key
    rw [OrderedMap.get?_foldl_erase, if_neg hkept]

theorem keys_delete (keys : List String) :
    (s.delete keys).data.keys = s.data.keys.filter fun k => decide (k ∉ keys) :=
  OrderedMap.keys_foldl_erase s.data keys

theorem keysWith_delete (keys : List String) :
    ((s.delete keys).keysWith start).Perm
      ((s.keysWith start).filter fun k => decide (k ∉ keys)) := by
  refine (mergeSort_perm _ _).trans (.trans ?_ ((mergeSort_perm _ _).symm.filter _))
  rw [keys_delete, filter_comm]

/-- A way to look for the keys of a store that start with a text: a look shows the first ones of all
the keys that there are then, in whatever order, and goes on exactly if these were not all. It
leaves a record of calls behind. -/
def Pages (s : Store) (start : String) (look : Nat → StoreM (Nat × List String)) : Prop :=
  ∀ cursor s₁, s.Continues s₁ → ∃ (next : Nat) (listed : List String) (page : Nat)
    (made : List Call),
    (look cursor).run.run s₁ = (.ok (next, listed.take page),
      { s₁ with calls := s₁.calls ++ made }) ∧
      Call.close ∉ made ∧ listed.Perm (s₁.keysWith start) ∧ 1 ≤ page ∧
        (next = 0 ↔ listed.length ≤ page)

theorem pages_scan (hpage : s.page ≠ some 0) (start : String) : s.Pages start (scan start) := by
  intro cursor s₁ hs
  have hscan : (scan start cursor).run.run s₁ =
      (.ok (if (s₁.firstPage (s₁.keysWith start)).length <
        (s₁.keysWith start).length then cursor + 1 else 0,
        s₁.firstPage (s₁.keysWith start)), s₁.record (.scan cursor (start ++ "*") scanCount)) := rfl
  obtain ⟨page, hone, hfirst⟩ :
      ∃ page, 1 ≤ page ∧ s₁.firstPage (s₁.keysWith start) = (s₁.keysWith start).take page := by
    unfold firstPage
    cases hn : s₁.page with
    | none => exact ⟨(s₁.keysWith start).length + 1, Nat.le_add_left ..,
        (take_of_length_le (Nat.le_succ _)).symm⟩
    | some n =>
      refine ⟨n, Nat.one_le_iff_ne_zero.2 ?_, rfl⟩
      rintro rfl
      exact hpage (hs.page.symm.trans hn)
  refine ⟨_, s₁.keysWith start, page, _, hfirst ▸ hscan, by simp, .refl _, hone, ?_⟩
  rw [length_take]
  split <;> omega

theorem Pages.record (h : s.Pages start look) (address : Address) :
    (s.record (.connect address)).Pages start look :=
  fun cursor s₁ hs => h cursor s₁ ((Continues.record (by simp)).trans hs)

/-- What one page does: the keys on it are erased, and it is the last one exactly if no key is
left. -/
theorem run_flushPage (hlook : s.Pages start look) (hs : s.Continues s') (cursor : Nat) :
    ∃ next erased s₁, (flushPage look cursor).run.run s' = (.ok (next, erased), s₁) ∧
      s'.Erased start s₁ ∧ (next = 0 → s₁.keysWith start = []) ∧
      (next ≠ 0 → (s₁.keysWith start).length < (s'.keysWith start).length) ∧
      (s'.data.keys.Nodup → s₁.data.keys.Nodup ∧
        erased + (s₁.keysWith start).length = (s'.keysWith start).length) := by
  obtain ⟨next, listed, page, made, hrun, hopen, hperm, hone, hnext⟩ := hlook cursor s' hs
  let s₀ : Store := { s' with calls := s'.calls ++ made }
  have hlooked : s'.Erased start s₀ :=
    ⟨⟨⟨made, rfl, hopen⟩, rfl, rfl, rfl, rfl, rfl⟩, rfl, fun _ _ => rfl⟩
  have hsubset : listed.take page ⊆ s₀.keysWith start :=
    fun _ hk => hperm.subset (take_subset page listed hk)
  -- whether or not the page is empty, what is left are the keys that are not on it
  obtain ⟨s₁, herase, herased, hdata⟩ :
      ∃ s₁, (flushPage look cursor).run.run s' = (.ok (next, (listed.take page).length), s₁) ∧
      s₀.Erased start s₁ ∧ s₁.data = (s₀.delete (listed.take page)).data := by
    unfold flushPage
    rw [run_bind_ok hrun]
    dsimp only
    cases hpage : listed.take page with
    | nil => exact ⟨s₀, rfl, ⟨.refl s₀, rfl, fun _ _ => rfl⟩, rfl⟩
    | cons key rest => exact ⟨s₀.delete (key :: rest), rfl, erased_delete (hpage ▸ hsubset), rfl⟩
  have hleft : (s₁.keysWith start).Perm (listed.filter fun k => decide (k ∉ listed.take page)) := by
    rw [keysWith, hdata]
    exact (keysWith_delete (s := s₀) _).trans (hperm.symm.filter _)
  refine ⟨next, _, s₁, herase, hlooked.trans herased, fun hzero => ?_, fun hmore => ?_,
    fun hnodup => ⟨?_, ?_⟩⟩
  · rw [take_of_length_le (hnext.1 hzero)] at hleft
    rw [← perm_nil]
    exact hleft.trans (by simp)
  · have hlong : page < listed.length := Nat.lt_of_not_le fun h => hmore (hnext.2 h)
    rw [hleft.length_eq, ← hperm.length_eq, length_filter_lt_length_iff_exists]
    have hfirst : listed.head (by rintro rfl; simp at hlong) ∈ listed.take page := by
      rw [← head_take (i := page) (by rw [ne_nil_iff_length_pos, length_take]; omega)]
      exact head_mem _
    exact ⟨_, mem_of_mem_take hfirst, by simpa using hfirst⟩
  · rw [hdata, keys_delete]
    exact hnodup.filter _
  · have hlisted : listed.Nodup :=
      hperm.nodup_iff.2 ((mergeSort_perm _ _).nodup_iff.2 (hnodup.filter _))
    have hrest : (listed.filter fun k => decide (k ∉ listed.take page)) = listed.drop page := by
      rw [← take_append_drop page listed] at hlisted
      conv_lhs => rw [← take_append_drop page listed]
      rw [filter_append, take_append_drop, filter_eq_nil_iff.2 (by simp), nil_append,
        filter_eq_self]
      intro k hk
      rw [decide_eq_true_iff]
      exact fun h => (nodup_append.1 hlisted).2.2 k h k hk rfl
    rw [hleft.length_eq, hrest, ← hperm.length_eq, ← length_append, take_append_drop]

end Store

/-- The pages that are erased from a cursor on, up to one after which there is none. -/
inductive Flushes (look : Nat → StoreM (Nat × List String)) :
    (cursor : Nat) → Store → (erased : Nat) → Store → Prop
  | last {cursor n : Nat} {s s' : Store}
      (page : (flushPage look cursor).run.run s = (.ok (0, n), s')) :
      Flushes look cursor s n s'
  | more {cursor next n m : Nat} {s s₁ s' : Store}
      (page : (flushPage look cursor).run.run s = (.ok (next, n), s₁))
      (hnext : next ≠ 0) (rest : Flushes look next s₁ m s') : Flushes look cursor s (n + m) s'

/-- Erasing ends, with a round for each of the keys at the latest, and no key is left then. -/
theorem run_flushFrom {start : String} {s : Store} (hlook : base.Pages start look)
    (hs : base.Continues s)
    {rounds : Nat} (hrounds : (s.keysWith start).length < rounds) (cursor : Nat) :
    ∃ n s', (flushFrom look rounds cursor).run.run s = (.ok n, s') ∧ Flushes look cursor s n s' ∧
      s.Erased start s' ∧ s'.keysWith start = [] ∧ (s.data.keys.Nodup →
        n = (s.keysWith start).length) := by
  induction rounds generalizing cursor s with
  | zero => omega
  | succ rounds ih =>
    obtain ⟨next, erased, s₁, hpage, herased, hlast, hfewer, hcount⟩ :=
      Store.run_flushPage hlook hs cursor
    unfold flushFrom
    rw [run_bind_ok hpage]
    dsimp only
    by_cases hnext : next = 0
    · subst hnext
      refine ⟨erased, s₁, rfl, .last hpage, herased, hlast rfl, fun hnodup => ?_⟩
      rw [← (hcount hnodup).2, hlast rfl, length_nil, Nat.add_zero]
    · -- a page that is not the last one leaves fewer keys, and there is one round less for them
      have hfewer := hfewer hnext
      obtain ⟨m, s', hrun, hrest, hrestErased, hnone, hrestCount⟩ :=
        ih (hs.trans herased.toContinues) (by omega) next
      refine ⟨erased + m, s', ?_, .more hpage hnext hrest, herased.trans hrestErased, hnone,
        fun hnodup => ?_⟩
      · rw [if_neg hnext, run_bind_ok hrun]
        rfl
      · rw [hrestCount (hcount hnodup).1, (hcount hnodup).2]

theorem run_flush {start : String} {s : Store} (hlook : s.Pages start look) :
    ∃ n s', (flush look).run.run s = (.ok n, s') ∧ Flushes look 0 s n s' ∧ s.Erased start s' ∧
      s'.keysWith start = [] ∧ (s.data.keys.Nodup → n = (s.keysWith start).length) := by
  unfold flush
  rw [run_bind_ok (run_get s)]
  refine run_flushFrom hlook (.refl s) ?_ 0
  rw [Store.length_keysWith]
  have hle := length_filter_le (startsWith · start) s.data.keys
  rw [OrderedMap.keys, length_map] at hle
  rw [OrderedMap.keys]
  omega

/-- **Flushing ends and erases exactly the keys of an earlier export.** -/
theorem flush_erases_exactly (s : Store) (hkeys : s.data.keys.Nodup) (keyPrefix : String)
    (look : Nat → StoreM (Nat × List String)) (hlook : s.Pages (keyStart keyPrefix) look) :
    ∃ n s', (flush look).run.run s = (.ok n, s') ∧ Flushes look 0 s n s' ∧
      n = s.data.keys.countP (startsWith · (keyStart keyPrefix)) ∧
      (∀ key ∈ s'.data.keys, startsWith key (keyStart keyPrefix) = false) ∧
      ∀ key, startsWith key (keyStart keyPrefix) = false → s'.data.get? key = s.data.get? key := by
  obtain ⟨n, s', hrun, hflushes, herased, hnone, hcount⟩ := run_flush hlook
  refine ⟨n, s', hrun, hflushes, ?_, fun key hkey => ?_, herased.get?⟩
  · rw [hcount hkeys, Store.length_keysWith, countP_eq_length_filter]
  · rw [Bool.eq_false_iff]
    intro hstarts
    have hmem := Store.mem_keysWith.2 ⟨hkey, hstarts⟩
    rw [hnone] at hmem
    exact not_mem_nil hmem

def troubledStore : Store where
  data := ⟨[("hammy:func:0", "old"), ("other", "kept"), ("hammy:func:3", "old")]⟩
  refused := ["hammy:func:2"]
  broken := [2]
  page := some 1

theorem flush_erases_exactly_troubledStore :
    troubledStore.data.keys.Nodup ∧ troubledStore.Pages (keyStart "hammy")
      (scan (keyStart "hammy")) ∧
      ∃ s', (flush (scan (keyStart "hammy"))).run.run troubledStore = (.ok 2, s') ∧
        s'.data.get? "other" = some "kept" := by
  have hkeys : troubledStore.data.keys.Nodup := by decide
  have hlook : troubledStore.Pages (keyStart "hammy") (scan (keyStart "hammy")) :=
    Store.pages_scan (by decide) _
  obtain ⟨n, s', hrun, -, hcount, -, hkept⟩ :=
    flush_erases_exactly troubledStore hkeys "hammy" _ hlook
  have htwo : n = 2 := hcount.trans (by decide)
  exact ⟨hkeys, hlook, s', htwo ▸ hrun, (hkept "other" (by decide)).trans (by decide)⟩

/-! ## What becomes of a function

By its key and the number of its batch a function is written, refused or lost. -/

section Fates

variable (o : ExportOptions) (s : Store)

def keyOf (n : Node) : String :=
  keyStart o.keyPrefix ++ n.id

def textOf (comments : List Node) (now : String) (n : Node) : String :=
  Json.write .compact (payload n comments o.commitDepth now)

def refuses (n : Node) : Bool :=
  s.refused.contains (keyOf o n)

/-- Whether a batch breaks; the first one that comes has number zero. -/
def breaks (batch : Nat) : Bool :=
  s.broken.contains (s.executed + 1 + batch)

def batched (functions : List Node) : List (Node × Nat) :=
  functions.zipIdx.map fun x => (x.1, x.2 / o.batchSize.toNat)

def written (batched : List (Node × Nat)) : List Node :=
  (batched.filter fun x => !refuses o s x.1 && !breaks s x.2).map (·.1)

def lost (batched : List (Node × Nat)) : List Node :=
  (batched.filter fun x => !refuses o s x.1 && breaks s x.2).map (·.1)

def refusalReport (n : Node) : String :=
  n.name ++ ": " ++ (Failure.keyRefused "bad key").message

def breakReport (batch : Nat) : String :=
  "Pipeline execute failed (batch " ++ toString (batch + 1) ++ "): " ++
    (Failure.keyValueDown "pipe broken").message

end Fates

variable {o : ExportOptions} {s s' : Store} {comments : List Node} {now : String}

theorem length_eq_written_add_refused_add_lost (xs : List (Node × Nat)) :
    xs.length = (written o s xs).length + ((xs.map (·.1)).filter (refuses o s)).length +
      (lost o s xs).length := by
  induction xs with
  | nil => rfl
  | cons x xs ih =>
    unfold written lost at ih ⊢
    rw [length_map, length_map] at ih ⊢
    rw [length_cons, map_cons, filter_cons, filter_cons, filter_cons]
    cases refuses o s x.1 <;> cases breaks s x.2 <;>
      simp only [Bool.not_true, Bool.not_false, Bool.false_and, Bool.true_and, if_true,
        Bool.false_eq_true, if_false, length_cons] <;> omega

theorem written_append (xs ys : List (Node × Nat)) :
    written o s (xs ++ ys) = written o s xs ++ written o s ys := by
  rw [written, filter_append, map_append]
  rfl

theorem written_batch (batch : List Node) (k : Nat) :
    written o s (batch.map fun n => (n, k)) = if breaks s k then [] else batch.filter fun n =>
      !refuses o s n := by
  rw [written, filter_map, map_map]
  cases hbreaks : breaks s k with
  | true => simp [Function.comp_def, hbreaks]
  | false => simp [Function.comp_def, hbreaks]

theorem map_fst_batched (functions : List Node) : (batched o functions).map (·.1) = functions := by
  rw [batched, map_map]
  exact zipIdx_map_fst 0 functions

theorem written_batched_of_no_failure {functions : List Node}
    (hrefuses : ∀ n ∈ functions, refuses o s n = false)
    (hbreaks : ∀ k, breaks s k = false) : written o s (batched o functions) = functions := by
  rw [written, filter_eq_self.2, map_fst_batched]
  intro x hx
  have hmem : x.1 ∈ functions := by
    rw [← map_fst_batched (o := o) functions]
    exact mem_map_of_mem hx
  rw [hrefuses x.1 hmem, hbreaks]
  rfl

/-! ## Writing batch after batch

The induction is on the batches, from any state that a batch may leave. -/

/-- What a run over numbered batches did to a store and to its report. The numbers count from a
state `base` of the store, which also says what is refused and which batches break. -/
structure Wrote (o : ExportOptions) (comments : List Node) (now : String) (base : Store)
    (batches : List (List Node × Nat)) (done : Exported) (s : Store) (done' : Exported)
    (s' : Store) : Prop extends s.Continues s' where
  executed : s'.executed = s.executed + batches.length
  count : done'.count =
    done.count + (written o base (batches.flatMap fun b => b.1.map fun n => (n, b.2))).length
  errors : done'.errors = done.errors ++
    batches.flatMap fun b => refusals o base b.1 ++ if breaks base b.2 then [breakReport b.2]
      else []
  data : s'.data = ((written o base (batches.flatMap fun b => b.1.map fun n => (n, b.2))).map
    fun n =>
    (keyOf o n, textOf o comments now n)).foldl (fun m e => m.insert e.1 e.2) s.data

/-- A store that has come to batch number `k`. -/
structure Reached (base : Store) (k : Nat) (s : Store) : Prop where
  refused : s.refused = base.refused
  broken : s.broken = base.broken
  executed : s.executed = base.executed + k

theorem pipeOf_eq (comments : List Node) (now : String) (batch : List Node) :
    pipeOf o s comments now batch =
      (batch.filter fun n => !refuses o s n).map fun n => (keyOf o n, textOf o comments now n) := by
  rw [pipeOf, filter_map]
  rfl

theorem execute_of_breaks (hbreaks : s.broken.contains (s.executed + 1))
    (pipe : List (String × String)) :
    s.execute pipe = (.error (.keyValueDown "pipe broken"),
      { s.record (.execute (pipe.map (·.1))) with executed := s.executed + 1 }) :=
  if_pos hbreaks

theorem execute_of_holds (hholds : s.broken.contains (s.executed + 1) = false)
    (pipe : List (String × String)) :
    s.execute pipe = (.ok (), { s.record (.execute (pipe.map (·.1))) with
      executed := s.executed + 1
      data := pipe.foldl (fun d e => d.insert e.1 e.2) s.data }) :=
  if_neg (Bool.eq_false_iff.1 hholds)

/-- The step: a batch writes what is not refused, or breaks and writes nothing. -/
theorem wrote_exportBatch (comments : List Node) (now : String) (hreached : Reached base k s)
    (total : Nat) (batch : List Node) (done : Exported) :
    Wrote o comments now base [(batch, k)] done s
      (exportBatch o comments now total (k + 1) batch done s).1
      (exportBatch o comments now total (k + 1) batch done s).2 := by
  have hrefuses : refuses o s = refuses o base := by
    funext n
    rw [refuses, hreached.refused, refuses]
  have hpipe := pipeOf_eq (o := o) (s := s) comments now batch
  rw [hrefuses] at hpipe
  have hrefusals : refusals o s batch = refusals o base batch := by
    rw [refusals, hreached.refused, refusals]
  have hbroken : s.broken.contains (s.executed + 1) = breaks base k := by
    rw [breaks, hreached.broken, hreached.executed]
    congr 1
    omega
  have hwritten := written_batch (o := o) (s := base) batch k
  have hcontinues : s.Continues (s.record (.execute ((pipeOf o s comments now batch).map (·.1)))) :=
    .record nofun
  -- a pipe that breaks has been executed too, but nothing in it counts
  cases hbreaks : breaks base k with
  | true =>
    rw [hbreaks, if_pos rfl] at hwritten
    rw [exportBatch, execute_of_breaks (hbroken.trans hbreaks)]
    refine ⟨⟨hcontinues.calls, rfl, rfl, rfl, rfl, rfl⟩, rfl, ?_, ?_, ?_⟩
    · simp only [flatMap_singleton, hwritten, length_nil, Nat.add_zero]
    · simp only [flatMap_singleton, hbreaks, if_true, hrefusals, append_assoc]
      rfl
    · simp only [flatMap_singleton, hwritten, map_nil, foldl_nil]
      rfl
  | false =>
    rw [hbreaks, if_neg Bool.false_ne_true] at hwritten
    rw [exportBatch, execute_of_holds (hbroken.trans hbreaks)]
    refine ⟨⟨hcontinues.calls, rfl, rfl, rfl, rfl, rfl⟩, rfl, ?_, ?_, ?_⟩
    · simp only [flatMap_singleton, hwritten, hpipe, length_map]
    · simp only [flatMap_singleton, hbreaks, hrefusals, Bool.false_eq_true, if_false, append_nil]
    · simp only [flatMap_singleton, hwritten, hpipe]

theorem Wrote.trans {ys : List (List Node × Nat)} {done'' : Exported} {s s' s'' : Store}
    (first : Wrote o comments now base xs done s done' s')
    (second : Wrote o comments now base ys done' s' done'' s'') :
    Wrote o comments now base (xs ++ ys) done s done'' s'' where
  toContinues := first.toContinues.trans second.toContinues
  executed := by
    rw [second.executed, first.executed, length_append, Nat.add_assoc]
  count := by
    rw [second.count, first.count, flatMap_append, written_append, length_append, Nat.add_assoc]
  errors := by
    rw [second.errors, first.errors, flatMap_append, append_assoc]
  data := by
    rw [second.data, first.data, flatMap_append, written_append, map_append, foldl_append]

theorem Wrote.reached (hreached : Reached base k s)
    (h : Wrote o comments now base xs done s done' s') :
    Reached base (k + xs.length) s' where
  refused := h.refused.trans hreached.refused
  broken := h.broken.trans hreached.broken
  executed := by
    rw [h.executed, hreached.executed, Nat.add_assoc]

/-- The run over all batches, numbered from any one on. -/
theorem wrote_exportBatches (comments : List Node) (now : String) (hreached : Reached base k s)
    (total : Nat) (batches : List (List Node)) (done : Exported) :
    Wrote o comments now base (batches.zipIdx k) done s
      (exportBatches o comments now total (k + 1) batches done s).1
      (exportBatches o comments now total (k + 1) batches done s).2 := by
  induction batches generalizing k done s with
  | nil => exact ⟨.refl s, rfl, rfl, (append_nil _).symm, rfl⟩
  | cons batch rest ih =>
    have hfirst := wrote_exportBatch (o := o) comments now hreached total batch done
    -- the numbers of batches and of executed pipes go up together, also where a pipe breaks
    rw [zipIdx_cons]
    exact hfirst.trans (ih (hfirst.reached hreached) _)

theorem reports_perm (batches : List (List Node)) :
    (batches.zipIdx.flatMap fun b => refusals o s b.1 ++ if breaks s b.2 then [breakReport b.2]
      else []).Perm ((batches.flatten.filter (refuses o s)).map refusalReport ++
        ((List.range batches.length).filter (breaks s)).map breakReport) := by
  -- the reports come batch by batch; sorted by kind, those of each kind are in order
  refine (flatMap_append_perm _ _ _).symm.trans ?_
  apply List.Perm.of_eq
  have hrefusals :
      (batches.zipIdx.flatMap fun b => refusals o s b.1) = refusals o s batches.flatten := by
    calc (batches.zipIdx.flatMap fun b => refusals o s b.1)
      _ = (batches.zipIdx.map Prod.fst).flatMap (refusals o s) := (flatMap_map ..).symm
      _ = batches.flatMap (refusals o s) := by rw [zipIdx_map_fst]
      _ = refusals o s batches.flatten := by
        unfold refusals
        rw [filter_flatten, map_flatten, map_map, flatMap_def]
        rfl
  have hbreaks : (batches.zipIdx.flatMap fun b => if breaks s b.2 then [breakReport b.2] else []) =
      ((List.range batches.length).filter (breaks s)).map breakReport := by
    calc (batches.zipIdx.flatMap fun b => if breaks s b.2 then [breakReport b.2] else [])
      _ = (batches.zipIdx.map Prod.snd).flatMap fun k => if breaks s k then [breakReport k]
        else [] := by
        rw [flatMap_map]
      _ = (List.range batches.length).flatMap fun k => if breaks s k then [breakReport k]
        else [] := by
        rw [zipIdx_map_snd, range_eq_range']
      _ = ((List.range batches.length).filter (breaks s)).map breakReport := by
        generalize List.range batches.length = ks
        induction ks with
        | nil => rfl
        | cons k ks ih =>
          rw [flatMap_cons, filter_cons, ih]
          cases breaks s k <;> rfl
  rw [hrefusals, hbreaks]
  rfl

/-! ## Whole exports

Connecting, erasing, writing and closing, one after the other. -/

def functionsOf (nodes : List Node) : List Node :=
  nodes.filter (isExported ·.kind)

/-- An export accounts for every function of a project, for what it did to the store, and for what
went wrong. -/
structure Accounts (o : ExportOptions) (s : Store) (nodes : List Node) (now : String)
    (done : Exported) (s' : Store) : Prop where
  total : (functionsOf nodes).length = done.count + ((functionsOf nodes).filter
    (refuses o s)).length + (lost o s (batched o (functionsOf nodes))).length
  errors : done.errors.Perm (((functionsOf nodes).filter (refuses o s)).map refusalReport ++
    ((List.range (((functionsOf nodes).length + o.batchSize.toNat - 1) / o.batchSize.toNat)).filter
      (breaks s)).map breakReport)
  /-- The last function that was written under a key counts. All other keys are kept, or erased
  beforehand. -/
  stored : ∀ key, s'.data.get? key =
    match (written o s (batched o (functionsOf nodes))).reverse.find? (keyOf o · == key) with
    | some n => some (textOf o (nodes.filter Node.isComment) now n)
    | none => if o.flush && startsWith key (keyStart o.keyPrefix) then none else s.data.get? key
  closed : ∃ made, s'.calls = s.calls ++ .connect o.address :: made ++ [.close] ∧ Call.close ∉ made

/-- Before functions are written, either nothing happens or the keys of an earlier export are
erased. -/
theorem run_flush_if (hlook : o.flush → s.Pages (keyStart o.keyPrefix) look) :
    ∃ s₁, (if o.flush then discard (flush look) else pure ()).run.run s = (.ok (), s₁) ∧
      s.Erased (keyStart o.keyPrefix) s₁ ∧
      ∀ key, s₁.data.get? key =
        if o.flush && startsWith key (keyStart o.keyPrefix) then none else s.data.get? key := by
  cases hflush : o.flush with
  | false => exact ⟨s, rfl, ⟨.refl s, rfl, fun _ _ => rfl⟩, fun _ => rfl⟩
  | true =>
    obtain ⟨n, s₁, hrun, -, herased, hnone, -⟩ := run_flush (hlook hflush)
    refine ⟨s₁, run_bind_ok hrun, herased, fun key => ?_⟩
    cases hkey : startsWith key (keyStart o.keyPrefix) with
    | true => exact Store.get?_of_keysWith_eq_nil hnone hkey
    | false => exact herased.get? key hkey

/-- A way to look for keys that fit a pattern. -/
abbrev Look := (pattern : String) → (cursor : Nat) → StoreM (Nat × List String)

variable {find : Look}

theorem run_writeFunctions (comments : List Node) (now : String) {s₁ : Store}
    (hsize : 1 ≤ o.batchSize) (functions : List Node)
    (hflush : (if o.flush then discard (flush (find (keyStart o.keyPrefix ++ "*")))
      else pure ()).run.run s =
      (.ok (), s₁)) :
    (writeFunctions find o functions comments now).run.run s =
      (exportBatches o comments now functions.length 1 (pieces o.batchSize.toNat functions) {}
        s₁).map .ok id := by
  unfold writeFunctions
  rw [if_neg (show ¬ o.batchSize = 0 by omega), if_pos (show 0 < o.batchSize by omega)]
  cases ho : o.flush with
  | true =>
    rw [ho] at hflush
    exact run_bind_ok hflush
  | false =>
    rw [ho] at hflush
    obtain rfl : s = s₁ := (Prod.mk.inj hflush).2
    rfl

theorem get?_of_wrote {batches : List (List Node × Nat)}
    (h : Wrote o comments now base batches done s done' s') (key : String) :
    s'.data.get? key =
      match (written o base (batches.flatMap fun b => b.1.map fun n => (n, b.2))).reverse.find?
        (keyOf o · == key) with
      | some n => some (textOf o comments now n)
      | none => s.data.get? key := by
  rw [h.data, OrderedMap.get?_foldl_insert, ← map_reverse, find?_map, Option.map_map]
  simp only [Function.comp_def]
  cases List.find? (fun n => keyOf o n == key) _ <;> rfl

theorem run_close (hclose : s.closeFault = none) : close.run.run s = (.ok (), s.record .close) := by
  have hfault : (s.record .close).closeFault = none := hclose
  unfold close
  rw [run_bind_ok (run_modify _ s), run_bind_ok (run_get _), hfault]
  rfl

theorem exportTo_eq (hfunctions : functionsOf nodes ≠ []) (hping : s.pingFault = none)
    (hrun : (writeFunctions find o (functionsOf nodes) (nodes.filter Node.isComment) now).run.run
      (s.record (.connect o.address)) = (.ok done, s')) (hclose : s'.closeFault = none) :
    exportTo find (some s) o nodes now = ⟨done, none, some (s'.record .close)⟩ := by
  have hne : (nodes.filter (isExported ·.kind)).isEmpty = false := isEmpty_eq_false_iff.2 hfunctions
  have hanswers : (s.record (.connect o.address)).pingFault = none := hping
  unfold exportTo
  simp only [hne, Bool.false_eq_true, if_false, hanswers]
  unfold functionsOf at hrun
  rw [exportAndClose, hrun]
  dsimp only
  rw [run_close hclose]
  rfl

/-- An export with any way to look for keys that pages through them. -/
theorem exists_accounts (now : String) (hfunctions : functionsOf nodes ≠ [])
    (hsize : 1 ≤ o.batchSize) (hping : s.pingFault = none) (hclose : s.closeFault = none)
    (hlook : o.flush → s.Pages (keyStart o.keyPrefix) (find (keyStart o.keyPrefix ++ "*"))) :
    ∃ done s', exportTo find (some s) o nodes now = ⟨done, none, some s'⟩ ∧
      Accounts o s nodes now done s' ∧ s'.getFault = s.getFault := by
  have hpos : 0 < o.batchSize.toNat := by omega
  obtain ⟨s₁, hflush, herased, hkept⟩ := run_flush_if (s := s.record (.connect o.address))
    fun hflush => (hlook hflush).record _
  have hreached : Reached s 0 s₁ := ⟨herased.refused, herased.broken, herased.executed⟩
  have hwrote := wrote_exportBatches (o := o) (nodes.filter Node.isComment) now hreached
    (functionsOf nodes).length (pieces o.batchSize.toNat (functionsOf nodes)) {}
  have hrun := run_writeFunctions (nodes.filter Node.isComment) now hsize (functionsOf nodes) hflush
  -- from here on, what the batches did is all that counts
  generalize exportBatches o (nodes.filter Node.isComment) now (functionsOf nodes).length 1
    (pieces o.batchSize.toNat (functionsOf nodes)) {} s₁ = r at hwrote hrun
  have hplaces : ((pieces o.batchSize.toNat (functionsOf nodes)).zipIdx.flatMap fun b =>
      b.1.map fun n => (n, b.2)) =
      batched o (functionsOf nodes) := by
    rw [flatMap_zipIdx_pieces hpos]
    simp only [Nat.zero_add]
    rfl
  have hcloses : r.2.closeFault = none := hwrote.closeFault.trans (herased.closeFault.trans hclose)
  refine ⟨r.1, r.2.record .close, exportTo_eq hfunctions hping hrun hcloses, ⟨?_, ?_, ?_, ?_⟩,
    hwrote.getFault.trans herased.getFault⟩
  · have hcount := hwrote.count
    rw [hplaces] at hcount
    have hall :=
      length_eq_written_add_refused_add_lost (o := o) (s := s) (batched o (functionsOf nodes))
    rw [map_fst_batched, ← length_map (·.1), map_fst_batched] at hall
    rw [hcount, hall]
    simp
  · rw [hwrote.errors, nil_append, ← length_pieces hpos]
    have hperm := reports_perm (o := o) (s := s) (pieces o.batchSize.toNat (functionsOf nodes))
    rw [flatten_pieces hpos] at hperm
    exact hperm
  · intro key
    have hget := get?_of_wrote hwrote key
    rw [hplaces, hkept key] at hget
    exact hget
  · obtain ⟨made, hmade, hopen⟩ := (herased.toContinues.trans hwrote.toContinues).calls
    refine ⟨made, ?_, hopen⟩
    show r.2.calls ++ [.close] = _
    rw [hmade]
    show (s.calls ++ [.connect o.address]) ++ made ++ [.close] = _
    rw [append_assoc s.calls]
    rfl

theorem Accounts.of_no_failure (h : Accounts o s nodes now done s')
    (hrefuses : ∀ n ∈ functionsOf nodes, refuses o s n = false)
    (hbreaks : ∀ k, breaks s k = false) :
    done.count = (functionsOf nodes).length ∧ done.errors = [] ∧ ∀ key, s'.data.get? key =
      match (functionsOf nodes).reverse.find? (keyOf o · == key) with
      | some n => some (textOf o (nodes.filter Node.isComment) now n)
      | none => if o.flush && startsWith key (keyStart o.keyPrefix) then none
          else s.data.get? key := by
  have hnone : (functionsOf nodes).filter (refuses o s) = [] := by
    rw [filter_eq_nil_iff]
    intro n hn
    rw [hrefuses n hn]
    exact Bool.false_ne_true
  have hlost : lost o s (batched o (functionsOf nodes)) = [] := by
    rw [lost, map_eq_nil_iff, filter_eq_nil_iff]
    intro x _
    rw [hbreaks, Bool.and_false]
    exact Bool.false_ne_true
  refine ⟨?_, ?_, fun key => ?_⟩
  · have htotal := h.total
    rw [hnone, hlost] at htotal
    exact htotal.symm
  · have herrors := h.errors
    rw [hnone,
      filter_eq_nil_iff.2 (fun k _ => by rw [hbreaks]; exact Bool.false_ne_true)] at herrors
    exact perm_nil.1 herrors
  · rw [h.stored key, written_batched_of_no_failure hrefuses hbreaks]

/-- Signs that do not stand for themselves in a pattern. -/
def patternSigns : List Char := ['*', '?', '[', '\\']

def isLiteral (text : String) : Bool :=
  text.toList.all fun c => !patternSigns.contains c

theorem isLiteral_keyStart {start : String} (h : isLiteral start) : isLiteral (keyStart start) := by
  rw [isLiteral, keyStart, String.toList_append, all_append, Bool.and_eq_true]
  exact ⟨h, by decide⟩

/-- A store that shows page after page of the keys that start with a text, where it is asked for
this text and a star. Nothing is said of a text with signs that do not stand for themselves. -/
def Store.Finds (s : Store) (find : Look) : Prop :=
  ∀ start, isLiteral start = true → s.Pages start (find (start ++ "*"))

theorem Store.finds_scanPattern (hpage : s.page ≠ some 0) : s.Finds scanPattern := by
  intro start _
  have hstart : scanPattern (start ++ "*") = scan start := by
    rw [scanPattern, String.toList_append, show "*".toList = ['*'] from rfl, dropLast_concat,
      String.ofList_toList]
  rw [hstart]
  exact Store.pages_scan hpage start

/-- **Exports account for every function.** Whatever the store refuses and whichever batches break,
an export to a store that answers ends, accounts for every function and closes the connection once.
If nothing fails, the size of the batches makes no difference. Where keys are to be erased first,
the store finds them in whatever order and pages, and the keys start with a text that stands for
itself in a pattern. -/
theorem exportTo_accounts (find : Look) (s : Store) (o : ExportOptions) (nodes : List Node)
    (now : String) (hfunctions : functionsOf nodes ≠ []) (hsize : 1 ≤ o.batchSize)
    (hping : s.pingFault = none) (hclose : s.closeFault = none)
    (hflush : o.flush = true → s.Finds find ∧ isLiteral o.keyPrefix = true) :
    ∃ done s', exportTo find (some s) o nodes now = ⟨done, none, some s'⟩ ∧
      Accounts o s nodes now done s' ∧
      ((∀ n ∈ functionsOf nodes, refuses o s n = false) → (∀ k, breaks s k = false) →
        ∀ size : Int, 1 ≤ size → ∃ done₁ s₁,
          exportTo find (some s) { o with batchSize := size } nodes now = ⟨done₁, none, some s₁⟩ ∧
          done₁.count = done.count ∧ done₁.errors = done.errors ∧ ∀ key,
            s₁.data.get? key = s'.data.get? key) := by
  have hlook (ho : o.flush = true) : s.Pages (keyStart o.keyPrefix)
      (find (keyStart o.keyPrefix ++ "*")) :=
    (hflush ho).1 _ (isLiteral_keyStart (hflush ho).2)
  obtain ⟨done, s', hrun, haccounts, -⟩ := exists_accounts now hfunctions hsize hping hclose hlook
  refine ⟨done, s', hrun, haccounts, fun hrefuses hbreaks size hsize₁ => ?_⟩
  obtain ⟨done₁, s₁, hrun₁, haccounts₁, -⟩ :=
    exists_accounts (o := { o with batchSize := size }) now hfunctions hsize₁ hping hclose hlook
  obtain ⟨hcount, herrors, hstored⟩ := haccounts.of_no_failure hrefuses hbreaks
  obtain ⟨hcount₁, herrors₁, hstored₁⟩ := haccounts₁.of_no_failure hrefuses hbreaks
  refine ⟨done₁, s₁, hrun₁, hcount₁.trans hcount.symm, herrors₁.trans herrors.symm, fun key => ?_⟩
  exact (hstored₁ key).trans (hstored key).symm

def namedFunction (id name : String) : Node :=
  { id, kind := .function, name, loc := ⟨"a.py", 1, 2⟩, language := "python" }

def repeatedFunctions : List Node :=
  [namedFunction "1" "f", namedFunction "2" "g", namedFunction "1" "h", namedFunction "3" "k"]

def flushInPairs : ExportOptions :=
  { batchSize := 2, flush := true }

theorem exportTo_accounts_troubledStore :
    functionsOf repeatedFunctions ≠ [] ∧ 1 ≤ flushInPairs.batchSize ∧
      troubledStore.pingFault = none ∧
      troubledStore.closeFault = none ∧ troubledStore.Finds scanPattern ∧
        isLiteral flushInPairs.keyPrefix = true ∧
      ∃ done s', exportTo scanPattern (some troubledStore) flushInPairs repeatedFunctions "T" =
        ⟨done, none, some s'⟩ ∧
        done.count = 1 ∧ done.errors.length = 2 ∧ s'.data.get? "other" = some "kept" ∧
        s'.data.get? "hammy:func:0" = none ∧ s'.data.get? "hammy:func:3" = none ∧
        s'.data.get? "hammy:func:1" = some
          (textOf flushInPairs [] "T" (namedFunction "1" "f")) := by
  have hfunctions : functionsOf repeatedFunctions ≠ [] := by decide
  have hfinds : troubledStore.Finds scanPattern := Store.finds_scanPattern (by decide)
  have hliteral : isLiteral flushInPairs.keyPrefix = true := by decide
  obtain ⟨done, s', hrun, haccounts, -⟩ :=
    exportTo_accounts scanPattern troubledStore flushInPairs repeatedFunctions "T"
    hfunctions (by decide) rfl rfl fun _ => ⟨hfinds, hliteral⟩
  have hrefused : (functionsOf repeatedFunctions).filter (refuses flushInPairs troubledStore) =
      [namedFunction "2" "g"] := by
    decide
  have hlost :
      lost flushInPairs troubledStore (batched flushInPairs (functionsOf repeatedFunctions)) =
      [namedFunction "1" "h", namedFunction "3" "k"] := by
    decide
  have hwritten :
      written flushInPairs troubledStore (batched flushInPairs (functionsOf repeatedFunctions)) =
      [namedFunction "1" "f"] := by
    decide
  refine ⟨hfunctions, by decide, rfl, rfl, hfinds, hliteral, done, s', hrun, ?_, ?_, ?_, ?_, ?_, ?_⟩
  · have htotal := haccounts.total
    rw [hrefused, hlost, show (functionsOf repeatedFunctions).length = 4 by decide] at htotal
    simp only [length_cons, length_nil] at htotal
    omega
  · rw [haccounts.errors.length_eq, hrefused]
    decide
  · rw [haccounts.stored, hwritten]
    decide
  · rw [haccounts.stored, hwritten]
    decide
  · rw [haccounts.stored, hwritten]
    decide
  · rw [haccounts.stored, hwritten]
    rfl

end CodeAtlas.KeyValue
