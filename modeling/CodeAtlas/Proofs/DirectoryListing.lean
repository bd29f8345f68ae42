import Mathlib.Data.List.Perm.Subperm
import CodeAtlas.Proofs.OrderedMap
import CodeAtlas.Report.Directory

/-!
# Symbols that a directory's report shows and counts

The report on a directory lists the symbols of each file up to a limit and says how many more there
are.
-/

namespace CodeAtlas.Report

open List

/-! ## Rows

Listings are lines of text. Rows remember which symbol a line shows. -/

/-- A line of a listing with the symbol that it shows, a symbol being taken with its position. -/
structure Row where
  text : String
  symbol? : Option (Node × Nat)

def Row.of (line : Node → String) (s : Node × Nat) : Row :=
  ⟨line s.1, some s⟩

def printed (rows : List Row) : List (Node × Nat) :=
  rows.filterMap Row.symbol?

def listingOf (rows : List Row) : Listing :=
  ⟨rows.map Row.text, (printed rows).length⟩

theorem printed_append (rows rows' : List Row) :
    printed (rows ++ rows') = printed rows ++ printed rows' :=
  filterMap_append

theorem printed_map_of (line : Node → String) (ss : List (Node × Nat)) :
    printed (ss.map (Row.of line)) = ss := by
  rw [printed, filterMap_map]
  exact filterMap_some

/-- The methods that are shown after a class when so many symbols are shown before them. -/
def methodsAfter {α : Type} (most shown : Nat) (methods : List α) : List α :=
  if shown < most then methods.take methodsPerClass else []

def moreMethods (count : Nat) : List Row :=
  if methodsPerClass <
    count then [⟨"    + " ++ toString (count - methodsPerClass) ++ " more methods", none⟩] else []

def addClassRows (most : Nat) (methods : List (Node × Nat)) (rows : List Row) (s : Node × Nat) :
    List Row :=
  if most ≤ (printed rows).length then rows
  else rows ++ ([Row.of classLine s] ++
    (methodsAfter most ((printed rows).length + 1) methods).map (Row.of (callableLine "    ")) ++
      moreMethods methods.length)

def addRow (most : Nat) (line : Node → String) (rows : List Row) (s : Node × Nat) : List Row :=
  if most ≤ (printed rows).length then rows else rows ++ [Row.of line s]

def ofKind (symbols : List (Node × Nat)) (k : NodeKind) : List (Node × Nat) :=
  symbols.filter (·.1.kind == k)

def ofOtherKinds (symbols : List (Node × Nat)) : List (Node × Nat) :=
  symbols.filter fun s => !([.classDecl, .method, .function] : List NodeKind).contains s.1.kind

def fileRows (most : Nat) (symbols : List (Node × Nat)) : List Row :=
  let rows := (ofKind symbols .classDecl).foldl (addClassRows most (ofKind symbols .method)) []
  let rows := (ofKind symbols .function).foldl (addRow most (callableLine "  ")) rows
  (ofOtherKinds symbols).foldl (addRow most fun n => "  " ++ title n ++ " (line " ++
    toString n.loc.first ++ ")") rows

theorem printed_addClassRows (most : Nat) (methods : List (Node × Nat)) (rows : List Row)
    (s : Node × Nat) :
    printed (addClassRows most methods rows s) = if most ≤ (printed rows).length then printed rows
      else printed rows ++ s :: methodsAfter most ((printed rows).length + 1) methods := by
  have hmore (count : Nat) : printed (moreMethods count) = [] := by
    unfold moreMethods
    split <;> rfl
  unfold addClassRows
  split
  · rfl
  · rw [printed_append, printed_append, printed_append, printed_map_of, hmore, append_nil]
    rfl

theorem addClass_listingOf (most : Nat) (methods : List (Node × Nat)) (rows : List Row)
    (s : Node × Nat) :
    Listing.addClass most (methods.map Prod.fst) (listingOf rows) s.1 = listingOf
      (addClassRows most methods rows s) := by
  have hshown := congrArg List.length (printed_addClassRows most methods rows s)
  refine Eq.trans ?_ (congrArg (Listing.mk _) hshown.symm)
  have hroom : ((printed rows).length : Int) + 1 < most ↔ (printed rows).length + 1 < most := by
    omega
  unfold Listing.addClass addClassRows methodsAfter moreMethods
  simp only [listingOf, Int.ofNat_le, hroom, length_map]
  split
  · rfl
  · refine congrArg₂ Listing.mk ?_ ?_
    · split <;> split <;> simp [Row.of, map_take, Function.comp_def]
    · split
      · simp [Nat.add_assoc, Nat.add_comm]
      · simp

theorem add_listingOf (most : Nat) (line : Node → String) (rows : List Row) (s : Node × Nat) :
    Listing.add most line (listingOf rows) s.1 = listingOf (addRow most line rows s) := by
  unfold Listing.add addRow
  simp only [listingOf, Int.ofNat_le]
  split
  · rfl
  · rw [printed_append, map_append, length_append]
    rfl

theorem foldl_listingOf {f : Listing → Node → Listing} {g : List Row → Node × Nat → List Row}
    (hstep : ∀ rows s, f (listingOf rows) s.1 = listingOf (g rows s)) (ss : List (Node × Nat))
    (rows : List Row) :
    (ss.map Prod.fst).foldl f (listingOf rows) = listingOf (ss.foldl g rows) := by
  induction ss generalizing rows with
  | nil => rfl
  | cons s ss ih => rw [map_cons, foldl_cons, hstep, ih, foldl_cons]

/-- **The lines of a file are its rows.** -/
theorem fileListing_eq (most : Nat) (nodes : List Node) :
    fileListing most nodes = listingOf (fileRows most nodes.zipIdx) := by
  have hfilter (p : Node → Bool) :
      nodes.filter p = (nodes.zipIdx.filter fun s => p s.1).map Prod.fst := by
    conv_lhs => rw [← zipIdx_map_fst 0 nodes]
    exact filter_map
  have hempty : ({} : Listing) = listingOf [] := rfl
  unfold fileListing
  simp only [hfilter, hempty]
  rw [foldl_listingOf (addClass_listingOf most _), foldl_listingOf (add_listingOf most _),
    foldl_listingOf (add_listingOf most _)]
  rfl

/-! ## The symbols that are shown

Classes come first, each with its methods while there is room. -/

def addClassSymbols {α : Type} (most : Nat) (methods : List α) (shown : List α) (c : α) : List α :=
  if most ≤ shown.length then shown else shown ++ c :: methodsAfter most (shown.length + 1) methods

/-- Shown symbols with others after them, as long as there is room. -/
def topUp {α : Type} (most : Nat) (shown rest : List α) : List α :=
  shown ++ rest.take (most - shown.length)

def shownOf {α : Type} (most : Nat) (classes methods rest : List α) : List α :=
  topUp most (classes.foldl (addClassSymbols most methods) []) rest

section

variable {α : Type} {most : Nat} {shown classes methods rest : List α} {c : α}

theorem topUp_eq_take (h : shown.length ≤ most) :
    topUp most shown rest = (shown ++ rest).take most := by
  rw [topUp, take_append, take_of_length_le h]

theorem topUp_length : topUp shown.length shown rest = shown := by
  rw [topUp, Nat.sub_self, take_zero, append_nil]

theorem topUp_append (more : List α) :
    topUp most (topUp most shown rest) more = topUp most shown (rest ++ more) := by
  have hroom : most - (topUp most shown rest).length = most - shown.length - rest.length := by
    rw [topUp, length_append, length_take]
    omega
  rw [topUp, hroom, topUp, topUp, take_append, append_assoc]

theorem foldl_addClassSymbols_of_full (h : most ≤ shown.length) :
    classes.foldl (addClassSymbols most methods) shown = shown := by
  induction classes with
  | nil => rfl
  | cons c classes ih => rw [foldl_cons, addClassSymbols, if_pos h, ih]

theorem prefix_foldl_addClassSymbols :
    shown <+: classes.foldl (addClassSymbols most methods) shown := by
  induction classes generalizing shown with
  | nil => exact prefix_rfl
  | cons c classes ih =>
    rw [foldl_cons]
    refine List.IsPrefix.trans ?_ ih
    unfold addClassSymbols
    split
    · exact prefix_rfl
    · exact prefix_append ..

/-- Without methods, or without room for one, classes are shown like all other symbols. -/
theorem shownOf_eq_take (h : classes = [] ∨ methods = [] ∨ most ≤ 1) :
    shownOf most classes methods rest = (classes ++ rest).take most := by
  have hrun (shown : List α) :
      classes.foldl (addClassSymbols most methods) shown = topUp most shown classes := by
    induction classes generalizing shown with
    | nil => rw [topUp, take_nil, append_nil, foldl_nil]
    | cons c classes ih =>
      have h : methods = [] ∨ most ≤ 1 := h.resolve_left (cons_ne_nil c classes)
      rw [foldl_cons, ih (.inr h), addClassSymbols]
      split
      · next hfull => rw [topUp, topUp, Nat.sub_eq_zero_of_le hfull, take_zero, take_zero]
      · next hroom =>
        have hafter : methodsAfter most (shown.length + 1) methods = [] := by
          unfold methodsAfter
          rcases h with rfl | hone
          · rw [take_nil, ite_self]
          · rw [if_neg (by omega)]
        have hone : most - shown.length = (most - (shown.length + 1)) + 1 := by omega
        rw [hafter, topUp, topUp, hone, take_succ_cons, append_assoc, length_append]
        rfl
  rw [shownOf, hrun, topUp_append, topUp_eq_take (Nat.zero_le most), nil_append]

theorem foldl_addClassSymbols_cons (hroom : shown.length + 1 < most) :
    (c :: classes).foldl (addClassSymbols most methods) shown =
      classes.foldl (addClassSymbols most methods)
        (shown ++ c :: methods.take methodsPerClass) := by
  rw [foldl_cons, addClassSymbols, if_neg (by omega), methodsAfter, if_pos hroom]

theorem shownOf_cons (hmost : 1 < most) : shownOf most (c :: classes) methods rest =
    topUp most (classes.foldl (addClassSymbols most methods) (c :: methods.take methodsPerClass))
      rest := by
  rw [shownOf, foldl_addClassSymbols_cons hmost, nil_append]

/-- Of several classes, a second one is shown if there is room for it, and no method is if there is
not. -/
theorem shownOf_eq_take_of_room {next : α} (hmost : 1 < most)
    (hfirst : (methods.take methodsPerClass).length < most)
    (hsecond : most ≤ (methods.take methodsPerClass).length + 2) :
    shownOf most (c :: next :: classes) methods rest =
      (c :: methods.take methodsPerClass ++ [next]).take most := by
  have hlength : (c :: methods.take methodsPerClass).length =
    (methods.take methodsPerClass).length + 1 := rfl
  have hboth : (c :: methods.take methodsPerClass ++ [next]).length =
      (methods.take methodsPerClass).length + 2 := by
    rw [length_append, hlength]
    rfl
  rw [shownOf_cons hmost]
  by_cases hfull : most ≤ (methods.take methodsPerClass).length + 1
  · rw [foldl_addClassSymbols_of_full (by rwa [hlength])]
    obtain rfl : most = (c :: methods.take methodsPerClass).length := by omega
    rw [topUp_length, take_left]
  · have hafter :
        methodsAfter most ((c :: methods.take methodsPerClass).length + 1) methods = [] := by
      rw [methodsAfter, if_neg (by omega)]
    rw [foldl_cons, addClassSymbols, if_neg (by rwa [hlength]), hafter,
      foldl_addClassSymbols_of_full (by rwa [hboth])]
    obtain rfl : most = (c :: methods.take methodsPerClass ++ [next]).length := by omega
    rw [topUp_length, take_length]

/-! ## Accounts

Methods of the whole file follow each class, so with two classes some may be shown twice. -/

/-- No symbol is shown twice, no more are shown than wanted, and those left out are counted. -/
def Accounts (most total : Nat) (shown : List α) : Prop :=
  shown.Nodup ∧ shown.length ≤ most ∧ shown.length + (total - most) = total

theorem accounts_take_iff {total : Nat} (hnodup : shown.Nodup) (htotal : shown.length ≤ total) :
    Accounts most total (shown.take most) ↔ most ≤ shown.length ∨ total = shown.length := by
  rw [Accounts, length_take, and_iff_right (hnodup.sublist (take_sublist most shown))]
  omega

/-- The numbers of classes, methods and other symbols of a file that is listed right up to a limit:
there are no methods, or no classes and others enough; or there is room for no method; or for those
of the first class, but not for those of a second one. -/
def Fits (most classes methods rest : Nat) : Prop :=
  methods = 0 ∨ classes = 0 ∧ most ≤ rest ∨ 0 < classes ∧ most ≤ 1 ∨
    0 < classes ∧ min methodsPerClass methods < most ∧
      if classes = 1 then methods ≤ methodsPerClass ∨ most ≤ 1 + methodsPerClass + rest
      else most ≤ min methodsPerClass methods + 2

theorem Accounts.of_prefix {total : Nat} {front : List α} (h : Accounts most total shown)
    (hfront : front <+: shown) : front.Nodup ∧ front.length ≤ most :=
  ⟨h.1.sublist hfront.sublist, Nat.le_trans hfront.length_le h.2.1⟩

theorem not_accounts_of_repeated {next : α} {total : Nat} (hmethods : methods ≠ [])
    (hroom : (methods.take methodsPerClass).length + 2 < most) :
    ¬ Accounts most total (shownOf most (c :: next :: classes) methods rest) := by
  intro h
  have hprefix : c :: methods.take methodsPerClass ++ next :: methods.take methodsPerClass <+:
      shownOf most (c :: next :: classes) methods rest := by
    rw [shownOf_cons (by omega), foldl_addClassSymbols_cons (by rw [length_cons]; omega)]
    exact prefix_foldl_addClassSymbols.trans (prefix_append ..)
  obtain ⟨m, others, rfl⟩ := exists_cons_of_ne_nil hmethods
  have hfirst : m ∈ (m :: others).take methodsPerClass := mem_cons_self
  exact (nodup_append.1 (h.of_prefix hprefix).1).2.2 m (mem_cons_of_mem c hfirst) m
    (mem_cons_of_mem next hfirst) rfl

theorem accounts_single_iff (hnodup : ([c] ++ (methods ++ rest)).Nodup) (hmost : 1 < most)
    (hroom : min methodsPerClass methods.length < most) :
    Accounts most ([c].length + (methods.length + rest.length)) (shownOf most [c] methods rest) ↔
      methods.length ≤ methodsPerClass ∨ most ≤ 1 + methodsPerClass + rest.length := by
  have hsub : (c :: methods.take methodsPerClass ++ rest).Sublist ([c] ++ (methods ++ rest)) :=
    ((take_sublist _ _).append_right rest).cons_cons c
  have hlength : (c :: methods.take methodsPerClass ++ rest).length =
      min methodsPerClass methods.length + 1 + rest.length := by
    rw [length_append, length_cons, length_take]
  rw [shownOf_cons hmost, foldl_nil, topUp_eq_take (by rw [length_cons, length_take]; omega),
    accounts_take_iff (hnodup.sublist hsub) (by rw [hlength, length_singleton]; omega), hlength,
      length_singleton]
  omega

theorem accounts_several_iff {next : α} (hnodup : (c :: next :: classes ++ (methods ++ rest)).Nodup)
    (hmost : 1 < most)
    (hmethods : methods ≠ []) (hroom : min methodsPerClass methods.length < most) :
    Accounts most ((c :: next :: classes).length + (methods.length + rest.length))
        (shownOf most (c :: next :: classes) methods rest) ↔
      most ≤ min methodsPerClass methods.length + 2 := by
  have hfirst : (methods.take methodsPerClass).length = min methodsPerClass methods.length :=
    length_take
  by_cases hsecond : most ≤ min methodsPerClass methods.length + 2
  · have hperm : (c :: methods.take methodsPerClass ++ [next]).Perm
        (c :: next :: methods.take methodsPerClass) :=
      (perm_append_singleton next _).cons c
    have hsub : (c :: next :: methods.take methodsPerClass).Sublist
        (c :: next :: classes ++ (methods ++ rest)) :=
      (((take_sublist _ _).trans (sublist_append_left methods rest)).trans
        (sublist_append_right classes _)).cons_cons next |>.cons_cons c
    have hlength : (c :: methods.take methodsPerClass ++ [next]).length =
        min methodsPerClass methods.length + 2 := by
      rw [length_append, length_cons, hfirst]
      rfl
    rw [shownOf_eq_take_of_room hmost (by omega) (by omega),
      accounts_take_iff (hperm.nodup_iff.2 (hnodup.sublist hsub)), hlength]
    · exact or_iff_left_of_imp fun _ => hsecond
    · rw [hlength, length_cons, length_cons]
      omega
  · exact iff_of_false (not_accounts_of_repeated hmethods (by omega)) hsecond

/-- **When what is shown of a file accounts for all of it.** -/
theorem accounts_shownOf_iff (hnodup : (classes ++ (methods ++ rest)).Nodup) :
    Accounts most (classes.length + (methods.length + rest.length))
      (shownOf most classes methods rest) ↔
      Fits most classes.length methods.length rest.length := by
  by_cases hplain : classes = [] ∨ methods = [] ∨ most ≤ 1
  · have hsub : (classes ++ rest).Sublist (classes ++ (methods ++ rest)) :=
      (List.Sublist.refl classes).append (sublist_append_right methods rest)
    rw [shownOf_eq_take hplain, accounts_take_iff (hnodup.sublist hsub)
      (by rw [length_append]; omega), length_append, Fits]
    simp only [← length_eq_zero_iff] at hplain
    split <;> omega
  obtain ⟨hclasses, hmethods, hmost⟩ := not_or.1 hplain |>.imp_right not_or.1
  have hmany : 0 < methods.length := length_pos_iff.2 hmethods
  obtain ⟨c, classes, rfl⟩ := exists_cons_of_ne_nil hclasses
  by_cases hroom : most ≤ min methodsPerClass methods.length
  · -- the methods after the first class are too many
    have hprefix :
        c :: methods.take methodsPerClass <+: shownOf most (c :: classes) methods rest := by
      rw [shownOf_cons (by omega)]
      exact prefix_foldl_addClassSymbols.trans (prefix_append ..)
    refine iff_of_false (fun h => ?_) (by rw [Fits, length_cons]; omega)
    have hlength := (h.of_prefix hprefix).2
    rw [length_cons, length_take] at hlength
    omega
  cases classes with
  | nil =>
    rw [accounts_single_iff hnodup (by omega) (by omega), Fits, length_singleton, if_pos rfl]
    omega
  | cons next classes =>
    rw [accounts_several_iff hnodup (by omega) hmethods (by omega), Fits, length_cons, length_cons,
      if_neg (by omega)]
    omega

end

theorem printed_foldl_addRow (most : Nat) (line : Node → String) (ss : List (Node × Nat))
    (rows : List Row) :
    printed (ss.foldl (addRow most line) rows) = topUp most (printed rows) ss := by
  induction ss generalizing rows with
  | nil => rw [topUp, take_nil, append_nil, foldl_nil]
  | cons s ss ih =>
    rw [foldl_cons, ih, addRow, topUp, topUp]
    split
    · next hfull => rw [Nat.sub_eq_zero_of_le hfull, take_zero, take_zero]
    · next hroom =>
      have hone : most - (printed rows).length = (most - ((printed rows).length + 1)) + 1 := by
        omega
      rw [printed_append, length_append, hone, take_succ_cons, append_assoc]
      rfl

/-- **The symbols that are shown of a file.** -/
theorem printed_fileRows (most : Nat) (symbols : List (Node × Nat)) :
    printed (fileRows most symbols) = shownOf most (ofKind symbols .classDecl)
      (ofKind symbols .method) (ofKind symbols .function ++ ofOtherKinds symbols) := by
  have hclasses :
      printed ((ofKind symbols .classDecl).foldl (addClassRows most (ofKind symbols .method)) []) =
      (ofKind symbols .classDecl).foldl (addClassSymbols most (ofKind symbols .method)) [] :=
    (foldl_hom printed fun rows s => (printed_addClassRows most _ rows s).symm).symm
  rw [fileRows, printed_foldl_addRow, printed_foldl_addRow, hclasses, topUp_append, shownOf]

theorem perm_kinds (symbols : List (Node × Nat)) :
    (ofKind symbols .classDecl ++ (ofKind symbols .method ++
      (ofKind symbols .function ++ ofOtherKinds symbols))).Perm symbols := by
  induction symbols with
  | nil => exact .nil
  | cons s symbols ih =>
    refine List.Perm.trans ?_ (ih.cons s)
    unfold ofKind ofOtherKinds
    cases hkind : s.1.kind
    case classDecl => simp [hkind]
    case method => simp [hkind, perm_middle]
    case function => simpa [hkind] using (perm_middle.append_left _).trans perm_middle
    all_goals
      simpa [hkind] using (((perm_middle.append_left _).trans perm_middle).append_left _).trans
        perm_middle

def kindCount (nodes : List Node) (k : NodeKind) : Nat :=
  nodes.countP (·.kind == k)

theorem accounts_fileRows_iff (most : Nat) (nodes : List Node) :
    Accounts most nodes.length (printed (fileRows most nodes.zipIdx)) ↔
      Fits most (kindCount nodes .classDecl) (kindCount nodes .method)
        (nodes.length - kindCount nodes .classDecl - kindCount nodes .method) := by
  have hcount (k : NodeKind) : kindCount nodes k = (ofKind nodes.zipIdx k).length := by
    rw [ofKind, ← countP_eq_length_filter, kindCount]
    conv_lhs => rw [← zipIdx_map_fst 0 nodes]
    exact countP_map
  have hperm := perm_kinds nodes.zipIdx
  have hnodup : nodes.zipIdx.Nodup :=
    List.Nodup.of_map Prod.snd (by rw [zipIdx_map_snd]; exact nodup_range' 1)
  have htotal := hperm.length_eq
  rw [length_append, length_append, length_zipIdx] at htotal
  rw [printed_fileRows, ← htotal, accounts_shownOf_iff (hperm.nodup_iff.2 hnodup), hcount, hcount]
  congr! 1
  omega

/-- The symbols of a file that a report on a directory counts. -/
def matching (nodes : List Node) (directory kind language file : String) : List Node :=
  ((symbolsOf nodes).filter fun n => isBelow directory n.loc.file && passesExact kind n.kind.word &&
    passesExact language n.language).filter fun n => n.loc.file = file

def moreSymbols (count : Nat) : List String :=
  if count = 0 then [] else ["  ... and " ++ toString count ++ " more symbols"]

theorem fileLines_eq (most : Nat) (file : String) (nodes : List Node) : fileLines most file nodes =
    [file ++ "  [" ++ (nodes.head?.map (·.language)).getD "" ++ "]"] ++
    (fileRows most nodes.zipIdx).map Row.text ++
      moreSymbols (nodes.length - most) ++ [""] := by
  rw [fileLines, fileListing_eq, moreSymbols]
  simp only [Int.ofNat_lt]
  congr 2
  by_cases hmore : most < nodes.length
  · rw [if_pos hmore, if_neg (Nat.sub_ne_zero_of_lt hmore), ← Int.ofNat_sub (Nat.le_of_lt hmore)]
    rfl
  · rw [if_neg hmore, if_pos (Nat.sub_eq_zero_of_le (Nat.le_of_not_lt hmore))]

/-- **When a report on a directory shows each symbol once and counts the rest.** A report has a
heading for each file with symbols, then rows for the symbols shown, then the number of the others,
which is what goes beyond the limit. The rows of a file account for its symbols exactly if the
numbers of its classes and methods fit. -/
theorem moduleSummary_tallied_iff (nodes : List Node) (directory kind language : String)
    (most : Nat) :
    (∃ header files, files.Nodup ∧
      (∀ f, f ∈ files ↔ matching nodes directory kind language f ≠ []) ∧
      (files ≠ [] → moduleSummary nodes directory most kind language =
        Text.trimRight (Text.join "\n" (header :: files.flatMap fun f =>
          let found := matching nodes directory kind language f
          [f ++ "  [" ++ (found.head?.map (·.language)).getD "" ++ "]"] ++
            (fileRows most found.zipIdx).map Row.text ++
            moreSymbols (found.length - most) ++ [""])))) ∧
    ∀ f, let found := matching nodes directory kind language f
      Accounts most found.length (printed (fileRows most found.zipIdx)) ↔
        Fits most (kindCount found .classDecl) (kindCount found .method)
          (found.length - kindCount found .classDecl - kindCount found .method) := by
  refine ⟨?_, fun f => accounts_fileRows_iff most _⟩
  have hfound (f : String) : ((symbolsBelow nodes directory kind language).get? f).getD [] =
      matching nodes directory kind language f := OrderedMap.getD_get?_groupBy _ _ f
  have hkeys : ((symbolsBelow nodes directory kind language).keys).Perm
      (sortTexts (symbolsBelow nodes directory kind language).keys) := (mergeSort_perm _ _).symm
  refine ⟨"module: " ++ directory ++ "  (" ++ toString (symbolsBelow nodes directory kind
    language).entries.length ++
    " files, " ++ toString (symbolsBelow nodes directory kind language).values.flatten.length ++
      " symbols)\n",
    sortTexts (symbolsBelow nodes directory kind language).keys, ?_, fun f => ?_, fun hfiles => ?_⟩
  · exact hkeys.nodup_iff.1 (OrderedMap.nodup_keys_groupBy _ _)
  · rw [← hkeys.mem_iff]
    exact OrderedMap.mem_keys_groupBy _ _
  · have hentries : (symbolsBelow nodes directory kind language).entries.isEmpty = false := by
      rw [isEmpty_eq_false_iff]
      intro hnil
      have hnone : (symbolsBelow nodes directory kind language).keys = [] := by
        rw [OrderedMap.keys, hnil, map_nil]
      rw [hnone] at hkeys hfiles
      exact hfiles hkeys.nil_eq.symm
    rw [moduleSummary]
    simp only [hentries, Bool.false_eq_true, if_false, hfound, fileLines_eq]

end CodeAtlas.Report
