import CodeAtlas.Project.Storing

/-!
# What is stored at a path is found there

* `Files.Leads` is the relation that `follow?` computes: one rule for each thing that may stand
  under a name. All facts about paths are inductions on it.
* Paths look at the kinds of entries only. Where these stay as they are, paths lead where they led
  (`Files.Keeps`, `Leads.of_keeps`).
* A path that can be followed to something that is not closed ends in a directory or in a place to
  which a file may be written (`Files.Slot`, `Leads.real_or_slot`).
* A path that leads to something other than a hidden file can be looked at (`fault?_of_entry?`).
-/

namespace CodeAtlas

open List

variable {more : List String} {e : Entry} {children : List (String × Entry)}

namespace Entry

/-! ## Putting an entry in a tree

What is at a path afterwards, at the place itself and elsewhere. -/

theorem at?_append (e : Entry) (a b : List String) :
    e.at? (a ++ b) = (e.at? a).bind fun c => c.at? b := by
  induction a generalizing e with
  | nil => rfl
  | cons name a ih =>
    rw [cons_append, at?, at?, Option.bind_assoc]
    exact congrArg _ (funext ih)

/-- Whatever something lies below is a directory. -/
theorem exists_dir_of_append {e c : Entry} {a b : List String} (h : e.at? (a ++ b) = some c)
    (hc : c.isDir ∨ b ≠ []) : ∃ children, e.at? a = some (.dir children) := by
  rw [at?_append] at h
  obtain ⟨d, hd, hb⟩ := Option.bind_eq_some_iff.1 h
  cases d with
  | dir children => exact ⟨children, hd⟩
  | _ =>
    cases b with
    | cons => cases hb
    | nil =>
      obtain rfl := Option.some.inj hb
      exact absurd rfl (hc.resolve_left Bool.false_ne_true)

theorem lookup_cons_ite (n m : String) (e : Entry) (children : List (String × Entry)) :
    ((m, e) :: children).lookup n = if n = m then some e else children.lookup n := by
  by_cases hn : n = m
  · simp [hn]
  · simp [lookup_cons, beq_false_of_ne hn, hn]

theorem lookup_putChild (name : String) (e : Entry) (children : List (String × Entry))
    (n : String) :
    (putChild name e children).lookup n = if n = name then some e else children.lookup n := by
  induction children with
  | nil => exact lookup_cons_ite n name e []
  | cons c children ih =>
    obtain ⟨m, old⟩ := c
    rw [putChild]
    split
    · next hm =>
      rw [lookup_cons_ite, lookup_cons_ite, eq_of_beq hm]
      split <;> rfl
    · next hm =>
      rw [lookup_cons_ite, lookup_cons_ite, ih]
      grind

theorem child?_put (new e : Entry) (name : String) (rest : List String) (n : String) :
    (put new (name :: rest) e).child? n =
      if n = name then some (put new rest ((e.child? name).getD (.dir []))) else e.child? n := by
  cases e with
  | dir children => exact lookup_putChild name _ children n
  | file content => exact lookup_putChild name _ [] n
  | link target => exact lookup_putChild name _ [] n
  | closed kind => exact lookup_putChild name _ [] n

theorem at?_put_self (new e : Entry) (names : List String) :
    (put new names e).at? names = some new := by
  induction names generalizing e with
  | nil => rfl
  | cons name rest ih => rw [at?, child?_put, if_pos rfl, Option.bind_some, ih]

theorem exists_at?_put_eq_dir (new e : Entry) (q : List String) (hmore : more ≠ []) :
    ∃ children, (put new (q ++ more) e).at? q = some (.dir children) := by
  induction q generalizing e with
  | nil =>
    cases more with
    | nil => exact absurd rfl hmore
    | cons name rest => exact ⟨_, rfl⟩
  | cons name q ih =>
    rw [cons_append, at?, child?_put, if_pos rfl, Option.bind_some]
    exact ih _

theorem at?_put_of_not_prefix (new e : Entry) {names q : List String} (hq : ¬ q <+: names)
    (hnames : ¬ names <+: q) : (put new names e).at? q = e.at? q := by
  induction names generalizing q e with
  | nil => exact absurd nil_prefix hnames
  | cons name rest ih =>
    cases q with
    | nil => exact absurd nil_prefix hq
    | cons n q =>
      rw [at?, at?, child?_put]
      by_cases hn : n = name
      · subst hn
        rw [cons_prefix_cons, not_and] at hq hnames
        rw [if_pos rfl, Option.bind_some, ih _ (hq rfl) (hnames rfl)]
        cases he : e.child? n with
        | some c => rfl
        | none =>
          -- the directory that is made on the way is empty beside what is put
          cases q with
          | nil => exact absurd nil_prefix (hq rfl)
          | cons m q => rfl
      · rw [if_neg hn]

/-- Two entries look the same to a path that is followed. -/
def SameKind : Entry → Entry → Prop
  | .file _, .file _ => True
  | .dir _, .dir _ => True
  | .link target, .link target' => target = target'
  | .closed kind, .closed kind' => kind = kind'
  | _, _ => False

theorem SameKind.rfl : SameKind e e := by
  cases e <;> simp [SameKind]

theorem SameKind.of_dir (h : SameKind (.dir children) e) : ∃ children', e = .dir children' := by
  cases e <;> simp_all [SameKind]

/-- What names cannot lead beyond. -/
def isLeaf : Entry → Bool
  | .file _ | .closed _ => true
  | _ => false

theorem SameKind.isLeaf {c : Entry} (h : SameKind c e) (hleaf : c.isLeaf) : e.isLeaf := by
  cases c <;> cases e <;> simp_all [SameKind, Entry.isLeaf]

theorem SameKind.of_link {target : String} (h : SameKind (.link target) e) : e = .link target := by
  cases e <;> simp_all [SameKind]

end Entry

namespace Files

/-! ## Where names lead

`Leads` follows names through directories and links, and is what looking a path up computes. -/

/-- From a place names lead to another one, across so many links at most. -/
inductive Leads (files : Files) (fresh : Bool) :
    (links : Nat) → (place names r : List String) → Prop
  | done {n : Nat} {place : List String} : Leads files fresh n place [] place
  | up {n : Nat} {place rest r : List String} (h : Leads files fresh n place.tail rest r) :
      Leads files fresh n place (".." :: rest) r
  | down {n : Nat} {place rest r : List String} {name : String} {children : List (String × Entry)}
      (hname : name ≠ "..")
      (hat : files.root.at? (place.reverse ++ [name]) = some (.dir children))
      (h : Leads files fresh n (name :: place) rest r) : Leads files fresh n place (name :: rest) r
  | jump {n : Nat} {place rest r : List String} {name target : String} (hname : name ≠ "..")
      (hat : files.root.at? (place.reverse ++ [name]) = some (.link target))
      (h : Leads files fresh n (if (Path.ofText target).absolute then [] else place)
        ((Path.ofText target).parts ++ rest) r) : Leads files fresh (n + 1) place (name :: rest) r
  | leaf {n : Nat} {place : List String} {name : String} {c : Entry} (hname : name ≠ "..")
      (hat : files.root.at? (place.reverse ++ [name]) = some c) (hleaf : c.isLeaf = true) :
      Leads files fresh n place [name] (name :: place)
  | missing {n : Nat} {place : List String} {name : String} (hname : name ≠ "..")
      (hat : files.root.at? (place.reverse ++ [name]) = none) (hfresh : fresh = true) :
      Leads files fresh n place [name] (name :: place)

variable {files files' : Files} {fresh : Bool} {n : Nat} {place names r : List String}
  {name : String}

theorem follow?_nil : files.follow? fresh n place [] = some place := by
  cases n <;> rfl

theorem follow?_cons (files : Files) (fresh : Bool) (n : Nat) (place : List String) (name : String)
    (rest : List String) :
    files.follow? fresh n place (name :: rest) =
      if name == ".." then files.follow? fresh n place.tail rest
      else
        match files.root.at? (place.reverse ++ [name]) with
        | none => if fresh && rest.isEmpty then some (name :: place) else none
        | some (.link target) =>
          match n with
          | 0 => none
          | n + 1 => files.follow? fresh n (if (Path.ofText target).absolute then [] else place)
              ((Path.ofText target).parts ++ rest)
        | some (.dir _) => files.follow? fresh n (name :: place) rest
        | some _ => if rest.isEmpty then some (name :: place) else none := by
  cases n <;> rfl

theorem Leads.follow?_eq (h : Leads files fresh n place names r) :
    files.follow? fresh n place names = some r := by
  induction h with
  | done => exact follow?_nil
  | up h ih => rwa [follow?_cons, if_pos (beq_self_eq_true "..")]
  | down hname hat h ih => rwa [follow?_cons, if_neg (by simpa using hname), hat]
  | jump hname hat h ih => rwa [follow?_cons, if_neg (by simpa using hname), hat]
  | @leaf n place name c hname hat hleaf =>
    rw [follow?_cons, if_neg (by simpa using hname), hat]
    cases c with
    | file => rfl
    | closed => rfl
    | dir => cases hleaf
    | link => cases hleaf
  | missing hname hat hfresh =>
    rw [follow?_cons, if_neg (by simpa using hname), hat, hfresh]
    rfl

theorem leads_of_follow? (h : files.follow? fresh n place names = some r) :
    Leads files fresh n place names r := by
  -- links count down first, and between two links the names do
  induction n using Nat.strongRecOn generalizing place names with
  | ind n ihn =>
    induction names generalizing place with
    | nil =>
      rw [follow?_nil] at h
      obtain rfl := Option.some.inj h
      exact .done
    | cons name rest ih =>
      rw [follow?_cons] at h
      split at h
      · next hup =>
        obtain rfl := eq_of_beq hup
        exact .up (ih h)
      · next hup =>
        have hname : name ≠ ".." := by simpa using hup
        split at h
        · next hat =>
          split at h
          · next hlast =>
            rw [Bool.and_eq_true, List.isEmpty_iff] at hlast
            obtain ⟨hfresh, rfl⟩ := hlast
            obtain rfl := Option.some.inj h
            exact .missing hname hat hfresh
          · cases h
        · next target hat =>
          split at h
          · cases h
          · next n => exact .jump hname hat (ihn n (Nat.lt_succ_self n) h)
        · next hat => exact .down hname hat (ih h)
        · next c hlink hdir hat =>
          split at h
          · next hlast =>
            obtain rfl := List.isEmpty_iff.1 hlast
            obtain rfl := Option.some.inj h
            refine .leaf hname hat ?_
            cases c with
            | file => rfl
            | closed => rfl
            | dir children => exact absurd rfl (hdir children)
            | link target => exact absurd rfl (hlink target)
          · cases h

theorem follow?_eq_some_iff :
    files.follow? fresh n place names = some r ↔ Leads files fresh n place names r :=
  ⟨leads_of_follow?, Leads.follow?_eq⟩

theorem Leads.toFresh (h : Leads files false n place names r) :
    Leads files true n place names r := by
  induction h with
  | done => exact .done
  | up _ ih => exact .up ih
  | down hname hat _ ih => exact .down hname hat ih
  | jump hname hat _ ih => exact .jump hname hat ih
  | leaf hname hat hleaf => exact .leaf hname hat hleaf
  | missing _ _ hfresh => cases hfresh

theorem not_isDir_of_isLeaf {c : Entry} (hat : files.root.at? (place.reverse ++ [name]) = some c)
    (hleaf : c.isLeaf) : ¬ (files.root.at? (name :: place).reverse).any Entry.isDir := by
  rw [reverse_cons, hat]
  cases c <;> simp_all [Entry.isLeaf, Entry.isDir]

theorem Leads.append {last : List String} (h : Leads files false n place names r)
    (hr : (files.root.at? r.reverse).any Entry.isDir)
    (hmore : ∀ n, Leads files fresh n r more last) :
    Leads files fresh n place (names ++ more) last := by
  induction h with
  | done => exact hmore _
  | up _ ih => exact .up (ih hr hmore)
  | down hname hat _ ih => exact .down hname hat (ih hr hmore)
  | jump hname hat _ ih =>
    -- the names of the link's target come before the others
    have hgo := ih hr hmore
    rw [append_assoc] at hgo
    exact .jump hname hat hgo
  | leaf hname hat hleaf => exact absurd hr (not_isDir_of_isLeaf hat hleaf)
  | missing _ _ hfresh => cases hfresh

theorem isDir_of_at?_append {q : List String} {c : Entry}
    (h : files.root.at? (q ++ [name]) = some c) : (files.root.at? q).any Entry.isDir := by
  obtain ⟨children, hq⟩ := Entry.exists_dir_of_append h (.inr (cons_ne_nil name []))
  rw [hq]
  rfl

/-- Whatever is there stays there, with its kind. The top of the tree does not count: paths start
below it. -/
def Keeps (files files' : Files) : Prop :=
  ∀ ⦃q : List String⦄ ⦃c : Entry⦄, q ≠ [] → files.root.at? q = some c →
    ∃ c', files'.root.at? q = some c' ∧ c.SameKind c'

theorem Leads.of_keeps (h : Leads files fresh n place names r) (hkeeps : Keeps files files')
    (hr : fresh → ∃ content, files'.root.at? r.reverse = some (.file content)) :
    Leads files' false n place names r := by
  have hne : ∀ (q : List String) (name : String), q ++ [name] ≠ [] := by simp
  induction h with
  | done => exact .done
  | up _ ih => exact .up (ih hr)
  | down hname hat _ ih =>
    obtain ⟨c', hat', hkind⟩ := hkeeps (hne _ _) hat
    obtain ⟨children', rfl⟩ := hkind.of_dir
    exact .down hname hat' (ih hr)
  | jump hname hat _ ih =>
    obtain ⟨c', hat', hkind⟩ := hkeeps (hne _ _) hat
    -- the link still has its target, so the names that come next are the same
    obtain rfl := hkind.of_link
    exact .jump hname hat' (ih hr)
  | leaf hname hat hleaf =>
    obtain ⟨c', hat', hkind⟩ := hkeeps (hne _ _) hat
    exact .leaf hname hat' (hkind.isLeaf hleaf)
  | missing hname _ hfresh =>
    obtain ⟨content, hat'⟩ := hr hfresh
    rw [reverse_cons] at hat'
    exact .leaf hname hat' rfl

/-! ## Places for files

Names lead to the same place after a file is put in a slot, through links as well. -/

def Real (files : Files) (place : List String) : Prop :=
  ∀ ⦃q : List String⦄, q <+: place.reverse → q ≠ [] → ∃ children,
    files.root.at? q = some (.dir children)

/-- A place for a file: there are directories above it, and it is neither a directory nor a link,
nor closed. -/
structure Slot (files : Files) (place : List String) : Prop where
  above : ∀ ⦃q : List String⦄, q <+: place.reverse → q ≠ place.reverse → q ≠ [] →
    ∃ children, files.root.at? q = some (.dir children)
  noDir : (files.root.at? place.reverse).any Entry.isDir = false
  noLink : place ≠ [] → ∀ target, files.root.at? place.reverse ≠ some (.link target)
  noClosed : (files.root.at? place.reverse).any Entry.isClosed = false

theorem Real.nil : Real files [] := by
  intro q hq hne
  exact absurd (prefix_nil.1 hq) hne

theorem Real.tail (h : Real files place) : Real files place.tail := by
  cases place with
  | nil => exact h
  | cons name place =>
    intro q hq
    refine h ?_
    rw [reverse_cons]
    exact hq.trans (prefix_append _ _)

theorem Real.cons (h : Real files place) {name : String}
    (hdir : files.root.at? (place.reverse ++ [name]) = some (.dir children)) :
    Real files (name :: place) := by
  intro q hq hne
  rw [reverse_cons, prefix_concat_iff] at hq
  rcases hq with rfl | hq
  · exact ⟨children, hdir⟩
  · exact h hq hne

theorem Real.jump (h : Real files place) (target : Path) :
    Real files (if target.absolute then [] else place) := by
  split
  · exact Real.nil
  · exact h

theorem Real.slot (h : Real files place) {name : String}
    (hname : ∀ c, files.root.at? (place.reverse ++ [name]) = some c → ∃ content,
      c = .file content) : Slot files (name :: place) := by
  have hfile (kind : Entry → Bool) (hkind : ∀ content, kind (.file content) = false) :
      (files.root.at? (name :: place).reverse).any kind = false := by
    rw [reverse_cons]
    cases hat : files.root.at? (place.reverse ++ [name]) with
    | none => rfl
    | some c =>
      obtain ⟨content, rfl⟩ := hname c hat
      exact hkind content
  refine ⟨fun q hq hlast hne => ?_, hfile _ fun _ => rfl, fun _ target htarget => ?_,
    hfile _ fun _ => rfl⟩
  · rw [reverse_cons] at hq hlast
    exact h ((prefix_concat_iff.1 hq).resolve_left hlast) hne
  · rw [reverse_cons] at htarget
    obtain ⟨content, hc⟩ := hname _ htarget
    cases hc

theorem Leads.real_or_slot (h : Leads files fresh n place names r) (hplace : Real files place)
    (hr : (files.root.at? r.reverse).any Entry.isClosed = false) : Real files r ∨ Slot files r := by
  induction h with
  | done => exact .inl hplace
  | up _ ih => exact ih hplace.tail hr
  | down _ hat _ ih => exact ih (hplace.cons hat) hr
  | jump _ _ _ ih => exact ih (hplace.jump _) hr
  | @leaf n place name c _ hat hleaf =>
    refine .inr (hplace.slot fun d hd => ?_)
    obtain rfl := Option.some.inj (hat.symm.trans hd)
    cases c with
    | file content => exact ⟨content, rfl⟩
    | closed kind =>
      rw [reverse_cons, hat] at hr
      cases hr
    | dir => cases hleaf
    | link => cases hleaf
  | missing _ hat => exact .inr (hplace.slot fun c hc => by cases hat.symm.trans hc)

theorem Leads.split (h : Leads files false n place (names ++ more) r) (hmore : more ≠ [])
    (hplace : Real files place) :
    ∃ mid m, Leads files false n place names mid ∧ Real files mid ∧
      Leads files false m mid more r := by
  -- the rules take names off the front, so the induction is on a list that ends with the others
  generalize hall : names ++ more = all at h
  induction h generalizing names with
  | done => simp [hmore] at hall
  | @up n place rest r h ih =>
    cases names with
    | nil =>
      obtain rfl : more = ".." :: rest := hall
      exact ⟨place, n, .done, hplace, .up h⟩
    | cons first names =>
      obtain ⟨rfl, rfl⟩ := List.cons.inj hall
      obtain ⟨mid, m, hmid, hreal, hlast⟩ := ih hplace.tail rfl
      exact ⟨mid, m, .up hmid, hreal, hlast⟩
  | @down n place rest r first children hfirst hat h ih =>
    cases names with
    | nil =>
      obtain rfl : more = first :: rest := hall
      exact ⟨place, n, .done, hplace, .down hfirst hat h⟩
    | cons second names =>
      obtain ⟨rfl, rfl⟩ := List.cons.inj hall
      obtain ⟨mid, m, hmid, hreal, hlast⟩ := ih (hplace.cons hat) rfl
      exact ⟨mid, m, .down hfirst hat hmid, hreal, hlast⟩
  | @jump n place rest r first target hfirst hat h ih =>
    cases names with
    | nil =>
      obtain rfl : more = first :: rest := hall
      exact ⟨place, n + 1, .done, hplace, .jump hfirst hat h⟩
    | cons second names =>
      obtain ⟨rfl, rfl⟩ := List.cons.inj hall
      obtain ⟨mid, m, hmid, hreal, hlast⟩ := ih (hplace.jump _) (append_assoc _ _ _)
      exact ⟨mid, m, .jump hfirst hat hmid, hreal, hlast⟩
  | @leaf n place first c hfirst hat hleaf =>
    cases names with
    | nil =>
      obtain rfl : more = [first] := hall
      exact ⟨place, n, .done, hplace, .leaf hfirst hat hleaf⟩
    | cons second names => simp [hmore] at hall
  | missing _ _ hfresh => cases hfresh

theorem Leads.init (h : Leads files false n place (names ++ [name]) r) (hname : name ≠ "..")
    (hplace : Real files place) :
    ∃ dir, Leads files false n place names dir ∧
      (files.root.at? dir.reverse).any Entry.isDir := by
  obtain ⟨dir, m, hdir, -, hlast⟩ := h.split (cons_ne_nil name []) hplace
  refine ⟨dir, hdir, ?_⟩
  cases hlast with
  | up => exact absurd rfl hname
  | down _ hat => exact isDir_of_at?_append hat
  | jump _ hat => exact isDir_of_at?_append hat
  | leaf _ hat => exact isDir_of_at?_append hat
  | missing _ _ hfresh => cases hfresh

/-- **Putting an entry in a place for a file keeps what is there.** Where there is a file, only a
file may take its place. -/
theorem Slot.keeps (h : Slot files place) (he : files.root.at? place.reverse = none ∨ ∃ content,
    e = .file content) : Keeps files (files.putAt place e) := by
  intro q c hne hc
  -- at the place, above it, below it, or beside it
  by_cases hq : q <+: place.reverse
  · by_cases hlast : q = place.reverse
    · subst hlast
      obtain ⟨content, rfl⟩ := he.resolve_left (by simp [hc])
      refine ⟨.file content, Entry.at?_put_self _ _ _, ?_⟩
      cases c with
      | file => exact trivial
      | dir =>
        have hnoDir := h.noDir
        rw [hc] at hnoDir
        cases hnoDir
      | link target => exact absurd hc (h.noLink (by simpa using hne) target)
      | closed =>
        have hnoClosed := h.noClosed
        rw [hc] at hnoClosed
        cases hnoClosed
    · obtain ⟨children, hdir⟩ := h.above hq hlast hne
      obtain rfl := Option.some.inj (hc.symm.trans hdir)
      obtain ⟨more, hmore⟩ := hq
      have hne : more ≠ [] := by
        rintro rfl
        exact hlast (by simpa using hmore)
      obtain ⟨children', hdir'⟩ := Entry.exists_at?_put_eq_dir e files.root q hne
      rw [hmore] at hdir'
      exact ⟨_, hdir', trivial⟩
  · by_cases hbelow : place.reverse <+: q
    · -- nothing stands below a file
      obtain ⟨more, rfl⟩ := hbelow
      rw [Entry.at?_append] at hc
      obtain ⟨top, htop, hmore⟩ := Option.bind_eq_some_iff.1 hc
      cases more with
      | nil => exact absurd (by simp) hq
      | cons name more =>
        have hnoDir := h.noDir
        rw [htop] at hnoDir
        cases top with
        | dir => cases hnoDir
        | file => cases hmore
        | link => cases hmore
        | closed => cases hmore
    · refine ⟨c, ?_, Entry.SameKind.rfl⟩
      rw [putAt, Entry.at?_put_of_not_prefix _ _ hq hbelow]
      exact hc

theorem at?_putAt_self (files : Files) (place : List String) (e : Entry) :
    (files.putAt place e).root.at? place.reverse = some e :=
  Entry.at?_put_self e files.root place.reverse

/-! ## Looking

Paths are refused along the way that `Leads` describes, so one that leads to a directory is refused
where its last names are, and one that leads to an entry is not refused unless that is hidden. -/

variable {p : Path} {content : String}

theorem refusal?_nil : files.refusal? p n place [] = none := by
  cases n <;> rfl

theorem refusal?_cons (files : Files) (p : Path) (n : Nat) (place : List String) (name : String)
    (rest : List String) :
    files.refusal? p n place (name :: rest) =
      if name == ".." then files.refusal? p n place.tail rest
      else
        match files.root.at? (place.reverse ++ [name]) with
        | none => if longestName < name.utf8ByteSize then some (.nameTooLong p.toText) else none
        | some (.link target) =>
          match n with
          | 0 => none
          | n + 1 => files.refusal? p n (if (Path.ofText target).absolute then [] else place)
              ((Path.ofText target).parts ++ rest)
        | some (.dir _) => files.refusal? p n (name :: place) rest
        | some (.closed .hidden) => some (.denied p.toText)
        | some _ => none := by
  cases n <;> rfl

theorem Leads.refusal?_append {o : Option Failure} (h : Leads files false n place names r)
    (hr : (files.root.at? r.reverse).any Entry.isDir) (hmore : ∀ n, files.refusal? p n r more = o) :
    files.refusal? p n place (names ++ more) = o := by
  induction h with
  | done => exact hmore _
  | up _ ih => rw [cons_append, refusal?_cons, if_pos (beq_self_eq_true ".."), ih hr hmore]
  | down hname hat _ ih =>
    rw [cons_append, refusal?_cons, if_neg (by simpa using hname), hat]
    exact ih hr hmore
  | jump hname hat _ ih =>
    rw [cons_append, refusal?_cons, if_neg (by simpa using hname), hat]
    simp only [← append_assoc]
    exact ih hr hmore
  | leaf hname hat hleaf => exact absurd hr (not_isDir_of_isLeaf hat hleaf)
  | missing _ _ hfresh => cases hfresh

theorem Leads.refusal?_eq_none (h : Leads files false n place names r)
    (hr : files.root.at? r.reverse ≠ some (.closed .hidden)) :
    files.refusal? p n place names = none := by
  induction h with
  | done => exact refusal?_nil
  | up _ ih => rw [refusal?_cons, if_pos (beq_self_eq_true ".."), ih hr]
  | down hname hat _ ih =>
    rw [refusal?_cons, if_neg (by simpa using hname), hat]
    exact ih hr
  | jump hname hat _ ih =>
    rw [refusal?_cons, if_neg (by simpa using hname), hat]
    exact ih hr
  | @leaf n place name c hname hat hleaf =>
    rw [reverse_cons, hat] at hr
    rw [refusal?_cons, if_neg (by simpa using hname), hat]
    cases c with
    | file => rfl
    | closed kind =>
      cases kind with
      | file => rfl
      | hidden => exact absurd rfl hr
    | dir => cases hleaf
    | link => cases hleaf
  | missing _ _ hfresh => cases hfresh

/-- **A path that leads to an entry can be looked at, unless that is hidden.** -/
theorem fault?_of_entry? (h : files.entry? p = some e) (he : e ≠ .closed .hidden) :
    files.fault? p = none := by
  obtain ⟨place, hplace, hat⟩ := Option.bind_eq_some_iff.1 h
  refine (follow?_eq_some_iff.1 hplace).refusal?_eq_none ?_
  rw [hat]
  exact fun heq => he (Option.some.inj heq)

theorem fault?_of_size? {size : Nat} (h : files.size? p = some size) : files.fault? p = none := by
  obtain ⟨e, hentry, hsize⟩ := Option.bind_eq_some_iff.1 h
  refine fault?_of_entry? hentry ?_
  rintro rfl
  cases hsize

theorem entry?_eq_some_iff : files.entry? p = some e ↔
    ∃ r, Leads files false mostLinks [] p.parts r ∧ files.root.at? r.reverse = some e := by
  simp only [place?, entry?, Option.bind_eq_some_iff, follow?_eq_some_iff]

theorem entry?_of_content? (h : files.content? p = some content) :
    files.entry? p = some (.file content) := by
  rw [content?] at h
  split at h
  · next hentry => rw [hentry, Option.some.inj h]
  · cases h

theorem content?_of_not_holds (h : ¬ files.holds p) : files.content? p = none := by
  rw [Option.eq_none_iff_forall_ne_some]
  intro content hcontent
  exact h (by rw [holds, entry?_of_content? hcontent, Option.isSome_some])

theorem size?_of_content? (h : files.content? p = some content) :
    files.size? p = some content.utf8ByteSize := by
  rw [size?, entry?_of_content? h]
  rfl

theorem fault?_of_isDir (h : files.isDir p) : files.fault? p = none := by
  obtain ⟨e, hentry, hdir⟩ := (Option.any_eq_true _ _).1 h
  refine fault?_of_entry? hentry ?_
  rintro rfl
  cases hdir

theorem look_eq_ok_iff : files.look p = .ok () ↔ files.fault? p = none := by
  rw [look]
  cases files.fault? p <;> simp

/-! ## Storing

Writing needs a directory that is open and a name that is free or a file's. -/

theorem target?_eq_some_iff : files.target? p = some place ↔ files.fault? p = none ∧
    Leads files true mostLinks [] p.parts place ∧ (files.root.at? place.reverse).any
      Entry.isClosed = false := by
  rw [target?]
  cases files.fault? p <;> simp [Option.filter_eq_some_iff, follow?_eq_some_iff]

theorem slot_of_target? (h : files.target? p = some place)
    (hnoDir : (files.root.at? place.reverse).any Entry.isDir = false) : Slot files place := by
  obtain ⟨-, hleads, hnoClosed⟩ := target?_eq_some_iff.1 h
  rcases hleads.real_or_slot Real.nil hnoClosed with hreal | hslot
  · refine ⟨fun q hq _ hne => hreal hq hne, hnoDir, fun hne target htarget => ?_, hnoClosed⟩
    obtain ⟨children, hdir⟩ := hreal prefix_rfl (by simpa using hne)
    cases htarget.symm.trans hdir
  · exact hslot

theorem writeText_eq_ok_iff : files.writeText p content = .ok files' ↔
    ∃ place, files.target? p = some place ∧ (files.root.at? place.reverse).any Entry.isDir = false ∧
      files' = files.putAt place (.file content) := by
  rw [writeText]
  cases files.target? p with
  | none => simp
  | some place =>
    cases hdir : (files.root.at? place.reverse).any Entry.isDir with
    | true => simp [hdir]
    | false =>
      simp only [hdir, Bool.false_eq_true, if_false, Except.ok.injEq, Option.some.injEq,
        exists_eq_left', true_and]
      exact eq_comm

/-- A directory is there already, or it is put into the one that is to hold it, which has nothing of
its name. -/
theorem ensureDir_eq_ok_iff : files.ensureDir p = .ok files' ↔
    files.isDir p ∧ files' = files ∨
      files.isDir p = false ∧ files.fault? p = none ∧ ∃ place,
        files.directory? p.parent = some place ∧
        files.root.at? (place.reverse ++ [p.name]) = none ∧ files' = files.putAt (p.name :: place)
          (.dir []) := by
  rw [ensureDir, look]
  cases hdir : files.isDir p with
  | true => simp [fault?_of_isDir hdir, bind, Except.bind, pure, Except.pure, eq_comm]
  | false =>
    cases hfault : files.fault? p with
    | some f => simp [bind, Except.bind]
    | none =>
      cases hparent : files.directory? p.parent with
      | none => simp [bind, Except.bind]
      | some place =>
        cases hname : files.root.at? (place.reverse ++ [p.name]) with
        | none => simp [hname, bind, Except.bind, pure, Except.pure, eq_comm]
        | some c => simp [hname, bind, Except.bind]

/-- **What was written at a path is what it holds.** -/
theorem content?_of_writeText (h : files.writeText p content = .ok files') :
    files'.content? p = some content := by
  obtain ⟨place, hplace, hnoDir, rfl⟩ := writeText_eq_ok_iff.1 h
  have hfile := at?_putAt_self files place (.file content)
  have hkeeps := (slot_of_target? hplace hnoDir).keeps (.inr ⟨content, rfl⟩)
  have hfollow : (files.putAt place (.file content)).place? p = some place :=
    ((target?_eq_some_iff.1 hplace).2.1.of_keeps hkeeps fun _ => ⟨content, hfile⟩).follow?_eq
  rw [content?, entry?, hfollow, Option.bind_some, hfile]

theorem target?_of_content? (h : files.content? p = some content) :
    ∃ place, files.target? p = some place ∧
      (files.root.at? place.reverse).any Entry.isDir = false := by
  obtain ⟨place, hplace, hat⟩ := Option.bind_eq_some_iff.1 (entry?_of_content? h)
  have hleads := (follow?_eq_some_iff.1 hplace).toFresh
  refine ⟨place, target?_eq_some_iff.2 ⟨fault?_of_size? (size?_of_content? h), hleads, ?_⟩, ?_⟩
  · rw [hat]
    rfl
  · rw [hat]
    rfl

theorem isDir_of_content? {dir : Path} {name : String} (hname : name ≠ "..")
    (hparts : p.parts = dir.parts ++ [name])
    (h : files.content? p = some content) : files.isDir dir := by
  obtain ⟨place, hplace, -⟩ := Option.bind_eq_some_iff.1 (entry?_of_content? h)
  rw [place?, hparts] at hplace
  obtain ⟨above, hleads, habove⟩ := (follow?_eq_some_iff.1 hplace).init hname Real.nil
  rw [isDir, entry?, place?, hleads.follow?_eq]
  exact habove

/-- A directory that can be made has a place in an open one. -/
theorem real_of_directory? {dir : Path} (hplace : files.directory? dir = some place) :
    Leads files false mostLinks [] dir.parts place ∧ Real files place ∧
      (files.root.at? place.reverse).any Entry.isDir := by
  obtain ⟨hfollow, hopen⟩ := Option.filter_eq_some_iff.1 hplace
  have hleads := follow?_eq_some_iff.1 hfollow
  refine ⟨hleads, ?_, hopen⟩
  have hnoClosed : (files.root.at? place.reverse).any Entry.isClosed = false := by
    rcases hat : files.root.at? place.reverse with _ | _ | _ | _ | _ <;>
      simp_all [Entry.isDir, Entry.isClosed]
  refine (hleads.real_or_slot Real.nil hnoClosed).resolve_right fun hslot => ?_
  rw [hslot.noDir] at hopen
  cases hopen

/-- A short name that an open directory does not have is not refused. -/
theorem fault?_of_missing {dir : Path} {name : String} (hplace : files.directory? dir = some place)
    (hname : name ≠ "..")
    (hshort : name.utf8ByteSize ≤ longestName) (hparts : p.parts = dir.parts ++ [name])
    (hnone : files.root.at? (place.reverse ++ [name]) = none) : files.fault? p = none := by
  obtain ⟨hleads, -, hopen⟩ := real_of_directory? hplace
  rw [fault?, hparts]
  refine hleads.refusal?_append hopen fun n => ?_
  rw [refusal?_cons, if_neg (by simpa using hname), hnone]
  exact if_neg (Nat.not_lt.2 hshort)

theorem target?_of_newDir {name : String} (hname : name ≠ "..")
    (hshort : name.utf8ByteSize ≤ longestName) {dir : Path}
    (hdir : dir.name ≠ "..") (hparts : p.parts = dir.parent.parts ++ [dir.name, name])
    (hplace : files.directory? dir.parent = some place)
    (hnone : files.root.at? (place.reverse ++ [dir.name]) = none) :
    (files.putAt (dir.name :: place) (.dir [])).target? p = some (name :: dir.name :: place) ∧
      (files.putAt (dir.name :: place) (.dir [])).root.at? (name :: dir.name :: place).reverse =
        none := by
  obtain ⟨hleads, hreal, -⟩ := real_of_directory? hplace
  -- what holds the new directory is one itself, and the names lead there as before
  have hslot : Slot files (dir.name :: place) := hreal.slot fun c hc => by cases hnone.symm.trans hc
  have hkeeps := hslot.keeps (e := .dir []) (.inl (by rwa [reverse_cons]))
  have hmade := at?_putAt_self files (dir.name :: place) (.dir [])
  rw [reverse_cons] at hmade
  have hempty :
      (files.putAt (dir.name :: place) (.dir [])).root.at? ((dir.name :: place).reverse ++ [name]) =
        none := by
    rw [reverse_cons, Entry.at?_append, hmade]
    rfl
  have hleads' := hleads.of_keeps hkeeps (by simp)
  have hopen := isDir_of_at?_append hmade
  refine ⟨target?_eq_some_iff.2 ⟨?_, ?_, ?_⟩, by rwa [reverse_cons]⟩
  · rw [fault?, hparts]
    refine hleads'.refusal?_append hopen fun n => ?_
    rw [refusal?_cons, if_neg (by simpa using hdir), hmade]
    show refusal? _ p n _ [name] = none
    rw [refusal?_cons, if_neg (by simpa using hname), hempty]
    exact if_neg (Nat.not_lt.2 hshort)
  · rw [hparts]
    exact hleads'.append hopen fun n => .down hdir hmade (.missing hname hempty rfl)
  · rw [reverse_cons, hempty]
    rfl

end Files

end CodeAtlas
