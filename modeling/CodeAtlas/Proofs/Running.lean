import CodeAtlas.Host

/-!
# Running operations

An operation that may fail and that changes a state runs step by step: what follows a step runs on
the state that the step left, and does not run after a failure. The rules below take a run apart in
that way and serve every such operation, whatever its state is.
-/

namespace CodeAtlas

variable {σ ε α β : Type}

theorem run_bind (x : ExceptT ε (StateM σ) α) (f : α → ExceptT ε (StateM σ) β) (s : σ) :
    (x >>= f).run.run s =
      match x.run.run s with
      | (.ok a, s') => (f a).run.run s'
      | (.error e, s') => (.error e, s') := by
  rw [ExceptT.run_bind, StateT.run_bind]
  change (match x.run.run s with | (r, s') => _) = _
  rcases x.run.run s with ⟨_ | a, s'⟩ <;> rfl

variable {x : ExceptT ε (StateM σ) α} {f : α → ExceptT ε (StateM σ) β} {s s' : σ}

theorem run_bind_ok {a : α} (hx : x.run.run s = (.ok a, s')) :
    (x >>= f).run.run s = (f a).run.run s' := by
  rw [run_bind, hx]

theorem run_bind_error {e : ε} (hx : x.run.run s = (.error e, s')) :
    (x >>= f).run.run s = (.error e, s') := by
  rw [run_bind, hx]

theorem run_bind_eq_ok {b : β} (h : (x >>= f).run.run s = (.ok b, s')) :
    ∃ a s₁, x.run.run s = (.ok a, s₁) ∧ (f a).run.run s₁ = (.ok b, s') := by
  rw [run_bind] at h
  split at h
  · next a s₁ hx => exact ⟨a, s₁, hx, h⟩
  · cases h

theorem run_pure_eq_ok {a b : α} (h : (pure a : ExceptT ε (StateM σ) α).run.run s = (.ok b, s')) :
    a = b ∧ s = s' := by
  obtain ⟨ha, hs⟩ := Prod.mk.inj h
  exact ⟨Except.ok.inj ha, hs⟩

theorem run_map (g : α → β) (x : ExceptT ε (StateM σ) α) (s : σ) :
    (g <$> x).run.run s = ((x.run.run s).1.map g, (x.run.run s).2) := by
  rw [map_eq_pure_bind, run_bind]
  rcases x.run.run s with ⟨_ | a, s'⟩ <;> rfl

theorem discard_bind (x : ExceptT ε (StateM σ) α) (f : α → ExceptT ε (StateM σ) β) :
    discard (x >>= f) = x >>= fun a => discard (f a) := by
  unfold discard
  simp only [map_const, Function.comp_apply, map_bind]

theorem run_discard_eq_ok {u : PUnit} (h : (discard x).run.run s = (.ok u, s')) :
    ∃ a, x.run.run s = (.ok a, s') := by
  unfold discard at h
  rw [map_const, Function.comp_apply, run_map] at h
  rcases hx : x.run.run s with ⟨e | a, s₁⟩
  · rw [hx] at h
    cases (Prod.mk.inj h).1
  · rw [hx] at h
    have hs : s₁ = s' := (Prod.mk.inj h).2
    exact ⟨a, by rw [hs]⟩

theorem run_get (s : σ) : (get : ExceptT ε (StateM σ) σ).run.run s = (.ok s, s) := rfl

theorem run_set (s' s : σ) : (set s' : ExceptT ε (StateM σ) PUnit).run.run s = (.ok ⟨⟩, s') := rfl

theorem run_modify (f : σ → σ) (s : σ) :
    (modify f : ExceptT ε (StateM σ) PUnit).run.run s = (.ok ⟨⟩, f s) := rfl

theorem run_except (x : Except ε α) (s : σ) :
    (liftM x : ExceptT ε (StateM σ) α).run.run s = (x, s) := rfl

theorem run_forM_except (f : α → Except ε PUnit) (xs : List α) (s : σ) :
    (xs.forM fun x => (liftM (f x) : ExceptT ε (StateM σ) PUnit)).run.run s = (xs.forM f, s) := by
  induction xs with
  | nil => rfl
  | cons x rest ih =>
    show ((liftM (f x) : ExceptT ε (StateM σ) PUnit) >>= fun _ => rest.forM fun x =>
        liftM (f x)).run.run s = _
    rw [run_bind, run_except]
    cases hx : f x with
    | error e => simp [hx, bind, Except.bind]
    | ok _ => simpa [hx, bind, Except.bind] using ih

theorem forM_eq_ok_iff {f : α → Except ε PUnit} {xs : List α} :
    xs.forM f = .ok ⟨⟩ ↔ ∀ x ∈ xs, f x = .ok ⟨⟩ := by
  induction xs with
  | nil => simp [pure, Except.pure]
  | cons x rest ih =>
    rw [List.forall_mem_cons, ← ih]
    show (f x >>= fun _ => rest.forM f) = .ok ⟨⟩ ↔ _
    cases f x <;> simp [bind, Except.bind]

namespace Host

/-- Nothing that symbols are read from was changed. -/
structure SameSource (h h' : Host) : Prop where
  files : h'.files = h.files
  grammar : h'.grammar = h.grammar

theorem SameSource.rfl {h : Host} : SameSource h h :=
  ⟨Eq.refl _, Eq.refl _⟩

theorem SameSource.trans {h h' h'' : Host} (first : SameSource h h') (second : SameSource h' h'') :
    SameSource h h'' :=
  ⟨second.files.trans first.files, second.grammar.trans first.grammar⟩

/-- The operation changes nothing that symbols are read from, also when it fails. -/
def KeepsSource {α : Type} (op : HostM α) : Prop :=
  ∀ h, SameSource h (op.run.run h).2

variable {α β : Type}

theorem keepsSource_pure (a : α) : KeepsSource (pure a) :=
  fun _ => .rfl

theorem keepsSource_throw (f : Failure) : KeepsSource (throw f : HostM α) :=
  fun _ => .rfl

theorem keepsSource_get : KeepsSource get :=
  fun _ => .rfl

theorem keepsSource_except (x : Except Failure α) : KeepsSource (liftM x : HostM α) :=
  fun _ => .rfl

theorem KeepsSource.bind {op : HostM α} {next : α → HostM β} (hop : KeepsSource op)
    (hnext : ∀ a, KeepsSource (next a)) : KeepsSource (op >>= next) := by
  intro h
  have hsame := hop h
  rw [run_bind]
  rcases hrun : op.run.run h with ⟨_ | a, h'⟩ <;> rw [hrun] at hsame
  · exact hsame
  · exact hsame.trans (hnext a h')

theorem keepsSource_onServices (op : ServiceM α) : KeepsSource (onServices op) := by
  intro h
  rw [onServices, run_bind_ok (run_get h)]
  rcases op.run.run ⟨h.shell, h.vectors⟩ with ⟨_ | a, s⟩ <;> exact ⟨rfl, rfl⟩

theorem keepsSource_onVectors (op : Vector.StoreM α) : KeepsSource (onVectors op) :=
  keepsSource_onServices _

theorem keepsSource_openCatalog (settings : StoreSettings) (project : String) :
    KeepsSource (openCatalog settings project) := by
  refine keepsSource_get.bind fun h => ?_
  dsimp only
  split
  · exact (keepsSource_throw _).bind fun _ => keepsSource_pure _
  · exact keepsSource_pure _

theorem keepsSource_catalogOr (catalog? : Option Vector.Catalog) (config : Config) :
    KeepsSource (catalogOr catalog? config) := by
  cases catalog? with
  | some c => exact keepsSource_pure c
  | none => exact keepsSource_openCatalog _ _

end Host

end CodeAtlas
