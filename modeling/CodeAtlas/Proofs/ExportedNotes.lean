import CodeAtlas.KeyValue.Notes
import CodeAtlas.Proofs.Codec
import CodeAtlas.Proofs.Exporting

/-!
# What an export does to notes on functions

Other tools leave notes in the text that an export wrote for a function. An export writes that text
anew, with an empty list in the place of the notes, and does not look at what is there.
-/

namespace CodeAtlas.KeyValue

open Json (WellKeyed)

@[simp] theorem wellKeyed_textOrNull (s : String) : WellKeyed (textOrNull s) := by
  unfold textOrNull
  split <;> simp

theorem wellKeyed_exportedChange (c : Change) : WellKeyed (exportedChange c) := by
  simp [exportedChange]

theorem wellKeyed_payload (n : Node) (comments : List Node) (depth : Int) (now : String) :
    WellKeyed (payload n comments depth now) := by
  simp [payload, wellKeyed_exportedChange]

/-- What is written for a function has no notes, whatever the function is. Its text is read back as
it was written, since no key stands in it twice. -/
theorem notesIn?_textOf (o : ExportOptions) (comments : List Node) (now : String) (n : Node) :
    notesIn? (textOf o comments now n) = none := by
  rw [notesIn?, textOf, Json.parse?_write (wellKeyed_payload n comments o.commitDepth now)]
  rfl

/-- The store can be reached, read and closed, takes the keys of all functions, and breaks no
pipe. -/
structure Store.Willing (s : Store) (o : ExportOptions) (functions : List Node) : Prop where
  pingFault : s.pingFault = none
  getFault : s.getFault = none
  closeFault : s.closeFault = none
  takes : ∀ n ∈ functions, refuses o s n = false
  holds : ∀ k, breaks s k = false

/-- An export writes a function with this identifier. -/
def Rewrites (o : ExportOptions) (nodes : List Node) (id : String) : Prop :=
  0 < o.batchSize ∧ ∃ n ∈ functionsOf nodes, n.id = id

def Annotated (s : Store) (start id : String) (notes : List Json) : Prop :=
  ∃ text value, s.data.get? (keyStart start ++ id) = some text ∧ Json.parse? text = some value ∧
    value.get? "meta" = some (.arr notes)

variable {o : ExportOptions} {s s' : Store} {nodes : List Node} {r : NoteReader}

theorem keyOf_eq_iff {n : Node} {id : String} :
    keyOf o n = keyStart o.keyPrefix ++ id ↔ n.id = id := by
  rw [keyOf, ← String.toList_inj, String.toList_append, String.toList_append, List.append_right_inj,
    String.toList_inj]

theorem notes?_eq (hreader : r.connected) (hget : s.getFault = none) (id : String) :
    r.notes? s id = (s.data.get? (keyStart r.keyPrefix ++ id)).bind notesIn? := by
  rw [NoteReader.notes?, hreader, hget]
  rfl

theorem notes?_of_annotated (hreader : r.connected) (hget : s.getFault = none) {id : String}
    {notes : List Json} (hne : notes ≠ []) (h : Annotated s r.keyPrefix id notes) :
    r.notes? s id = some (.arr notes) := by
  obtain ⟨text, value, htext, hvalue, hmeta⟩ := h
  have hsomething : (Json.arr notes).isSomething := by simpa [Json.isSomething] using hne
  rw [notes?_eq hreader hget, htext, Option.bind_some, notesIn?, hvalue, Option.bind_some, hmeta,
    Option.filter_some, if_pos hsomething]

/-- With a negative size of batches nothing is written at all. -/
theorem exportTo_of_neg {find : Look} (now : String) (hflush : o.flush = false)
    (hsize : o.batchSize < 0) (hfunctions : functionsOf nodes ≠ [])
    (hstore : s.Willing o (functionsOf nodes)) :
    ∃ s', exportTo find (some s) o nodes now = ⟨{}, none, some s'⟩ ∧ s'.data = s.data ∧
      s'.getFault = s.getFault := by
  let s₁ := s.record (.connect o.address)
  have hrun : (writeFunctions find o (functionsOf nodes) (nodes.filter Node.isComment) now).run.run
      s₁ = (.ok {}, s₁) := by
    unfold writeFunctions
    rw [hflush, if_neg Bool.false_ne_true, if_neg (show ¬ o.batchSize = 0 by omega),
      if_neg (show ¬ 0 < o.batchSize by omega)]
    rfl
  exact ⟨s₁.record .close, exportTo_eq hfunctions hstore.pingFault hrun hstore.closeFault, rfl, rfl⟩

theorem exists_exportTo (find : Look) (now : String) (hflush : o.flush = false)
    (hsize : o.batchSize ≠ 0)
    (hfunctions : functionsOf nodes ≠ []) (hstore : s.Willing o (functionsOf nodes)) :
    ∃ done s', exportTo find (some s) o nodes now = ⟨done, none, some s'⟩ ∧ done.errors = [] ∧
      s'.getFault = none ∧
      ∀ id, (Rewrites o nodes id → ∃ n ∈ functionsOf nodes,
        s'.data.get? (keyStart o.keyPrefix ++ id) =
          some (textOf o (nodes.filter Node.isComment) now n)) ∧
        (¬ Rewrites o nodes id → s'.data.get? (keyStart o.keyPrefix ++ id) =
          s.data.get? (keyStart o.keyPrefix ++ id)) := by
  by_cases hpos : 0 < o.batchSize
  · obtain ⟨done, s', hrun, haccounts, hfault⟩ :=
      exists_accounts (o := o) now hfunctions hpos hstore.pingFault
      hstore.closeFault (by rw [hflush]; exact fun h => absurd h Bool.false_ne_true)
    obtain ⟨-, herrors, hstored⟩ := haccounts.of_no_failure hstore.takes hstore.holds
    refine ⟨done, s', hrun, herrors, hfault.trans hstore.getFault, fun id => ?_⟩
    rw [hstored, hflush]
    cases hfind : (functionsOf nodes).reverse.find? (keyOf o · == keyStart o.keyPrefix ++ id) with
    | some n =>
      have hn := List.mem_reverse.1 (List.mem_of_find?_eq_some hfind)
      have hkey := List.find?_some hfind
      have hid : n.id = id := keyOf_eq_iff.1 (beq_iff_eq.1 hkey)
      exact ⟨fun _ => ⟨n, hn, rfl⟩, fun hnot => absurd ⟨hpos, n, hn, hid⟩ hnot⟩
    | none =>
      refine ⟨?_, fun _ => rfl⟩
      rintro ⟨-, n, hn, hid⟩
      have hkey := List.find?_eq_none.1 hfind n (List.mem_reverse.2 hn)
      exact absurd (beq_iff_eq.2 (keyOf_eq_iff.2 hid)) hkey
  · obtain ⟨s', hrun, hdata, hfault⟩ := exportTo_of_neg now hflush (by omega) hfunctions hstore
    refine ⟨{}, s', hrun, rfl, hfault.trans hstore.getFault,
      fun id => ⟨fun hrewrites => absurd hrewrites.1 hpos, fun _ => ?_⟩⟩
    rw [hdata]

/-- **An export loses the notes on the functions that it writes.** In a run without flushing in
which nothing goes wrong, a reader with the same start of keys finds no notes on a function that was
written, and on all others the same notes as before. So notes survive exactly on what was not
exported again. -/
theorem notes?_exportTo (find : Look) (s : Store) (o : ExportOptions) (nodes : List Node)
    (now : String) (r : NoteReader)
    (hflush : o.flush = false) (hsize : o.batchSize ≠ 0) (hfunctions : functionsOf nodes ≠ [])
    (hstore : s.Willing o (functionsOf nodes)) (hreader : r.connected = true)
    (hstart : r.keyPrefix = o.keyPrefix) :
    ∃ done s', exportTo find (some s) o nodes now = ⟨done, none, some s'⟩ ∧ done.errors = [] ∧
      (∀ id, (Rewrites o nodes id → r.notes? s' id = none) ∧
        (¬ Rewrites o nodes id → r.notes? s' id = r.notes? s id)) ∧
      ∀ id notes, notes ≠ [] → Annotated s o.keyPrefix id notes →
        r.notes? s id = some (.arr notes) ∧ (r.notes? s' id = some (.arr notes) ↔
          ¬ Rewrites o nodes id) := by
  obtain ⟨done, s', hrun, herrors, hfault, hkeys⟩ :=
    exists_exportTo find now hflush hsize hfunctions hstore
  have hnotes (id : String) : (Rewrites o nodes id → r.notes? s' id = none) ∧
      (¬ Rewrites o nodes id → r.notes? s' id = r.notes? s id) := by
    rw [notes?_eq hreader hfault, notes?_eq hreader hstore.getFault, hstart]
    constructor
    · intro hrewrites
      obtain ⟨n, -, htext⟩ := (hkeys id).1 hrewrites
      rw [htext, Option.bind_some, notesIn?_textOf]
    · intro hnot
      rw [(hkeys id).2 hnot]
  refine ⟨done, s', hrun, herrors, hnotes, fun id notes hne hannotated => ?_⟩
  have hbefore := notes?_of_annotated hreader hstore.getFault hne (hstart ▸ hannotated)
  refine ⟨hbefore, fun hafter hrewrites => ?_, fun hnot => ((hnotes id).2 hnot).trans hbefore⟩
  rw [(hnotes id).1 hrewrites] at hafter
  cases hafter

def annotatedText (id : String) (notes : List Json) : String :=
  Json.write .compact (.obj [("id", .str id), ("meta", .arr notes)])

def annotatedStore : Store where
  data := ⟨[("hammy:func:1", annotatedText "1" [.str "slow"]),
    ("hammy:func:2", annotatedText "2" [.str "old", .int 7])]⟩

theorem notes?_exportTo_annotatedStore :
    annotatedStore.Willing {} (functionsOf [namedFunction "1" "f"]) ∧
      ∃ done s', exportTo scanPattern (some annotatedStore) {} [namedFunction "1" "f"] "T" =
        ⟨done, none, some s'⟩ ∧ done.errors = [] ∧
        NoteReader.notes? { connected := true } annotatedStore "1" = some (.arr [.str "slow"]) ∧
        NoteReader.notes? { connected := true } s' "1" = none ∧
        NoteReader.notes? { connected := true } s' "2" = some (.arr [.str "old", .int 7]) := by
  have hstore : annotatedStore.Willing {} (functionsOf [namedFunction "1" "f"]) :=
    ⟨rfl, rfl, rfl, by decide, fun k => by simp [breaks, annotatedStore]⟩
  obtain ⟨done, s', hrun, herrors, hnotes, hannotated⟩ :=
    notes?_exportTo scanPattern annotatedStore {} [namedFunction "1" "f"] "T"
    { connected := true } rfl (by decide) (by decide) hstore rfl rfl
  have hfirst : Annotated annotatedStore "hammy" "1" [.str "slow"] :=
    ⟨annotatedText "1" [.str "slow"], _, rfl, Json.parse?_write (by simp), rfl⟩
  have hsecond : Annotated annotatedStore "hammy" "2" [.str "old", .int 7] :=
    ⟨annotatedText "2" [.str "old", .int 7], _, rfl, Json.parse?_write (by simp), rfl⟩
  refine ⟨hstore, done, s', hrun, herrors, (hannotated "1" _ (List.cons_ne_nil _ _) hfirst).1,
    (hnotes "1").1 ?_, (hannotated "2" _ (List.cons_ne_nil _ _) hsecond).2.2 ?_⟩
  · exact ⟨by decide, namedFunction "1" "f", by decide, rfl⟩
  · rintro ⟨-, n, hn, hid⟩
    obtain rfl := List.mem_singleton.1 (List.mem_of_mem_filter hn)
    exact absurd hid (by decide)

end CodeAtlas.KeyValue
