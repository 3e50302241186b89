import Avroc.Schema.Scope

/-!
# Steps that succeed

A step works on a state and may fail.  `outcome x s` is what the step `x` brings about in `s`: its
result or its error, and the state after it.  `Yields x s a s'` says that it succeeds with the
result `a` and leaves the state `s'`.

* `Leads` : what is known of an outcome, successful or not.
-/

namespace Avroc

variable {u : PUnit} {e : Error} {α : Type} {a : α}

/-- What a step brings about: its result or its error, and the state after it. -/
def outcome {σ α : Type} (x : ExceptT Error (StateM σ) α) (s : σ) : Except Error α × σ :=
  x.run s

/-- The step `x`, started in `s`, succeeds with the result `a` and leaves the state `s'`. -/
def Yields {σ α : Type} (x : ExceptT Error (StateM σ) α) (s : σ) (a : α) (s' : σ) : Prop :=
  outcome x s = (.ok a, s')

section
variable {σ β : Type} {s s' : σ} {b : α}

theorem outcome_bind (x : ExceptT Error (StateM σ) α) (f : α → ExceptT Error (StateM σ) β)
    (s : σ) : outcome (x >>= f) s = match outcome x s with
      | (.ok a, s₁) => outcome (f a) s₁
      | (.error e, s₁) => (.error e, s₁) := by
  show (match outcome x s with | (r, s₁) => ExceptT.bindCont f r s₁) = _
  rcases outcome x s with ⟨_ | _, s₁⟩ <;> rfl

@[simp] theorem yields_pure :
    Yields (pure a : ExceptT Error (StateM σ) α) s b s' ↔ b = a ∧ s' = s := by
  show ((Except.ok a, s) : Except Error α × σ) = (.ok b, s') ↔ _
  simp [eq_comm]

/-- A sequence succeeds when its parts do, one after the other. -/
@[simp] theorem yields_bind {x : ExceptT Error (StateM σ) α} {f : α → ExceptT Error (StateM σ) β}
    {b : β} : Yields (x >>= f) s b s' ↔ ∃ a s₁, Yields x s a s₁ ∧ Yields (f a) s₁ b s' := by
  unfold Yields
  rw [outcome_bind]
  rcases outcome x s with ⟨e | a, s₁⟩
  · simp
  · constructor
    · intro h
      exact ⟨a, s₁, rfl, h⟩
    · rintro ⟨_, _, h, h'⟩
      cases h
      exact h'

protected theorem Yields.pure : Yields (pure a : ExceptT Error (StateM σ) α) s a s :=
  rfl

protected theorem Yields.bind {x : ExceptT Error (StateM σ) α} {f : α → ExceptT Error (StateM σ) β}
    {s₁ : σ} {b : β} (h : Yields x s a s₁) (h' : Yields (f a) s₁ b s') : Yields (x >>= f) s b s' :=
  yields_bind.mpr ⟨a, s₁, h, h'⟩

@[simp] theorem yields_get {t : σ} :
    Yields (get : ExceptT Error (StateM σ) σ) s t s' ↔ t = s ∧ s' = s := by
  show ((Except.ok s, s) : Except Error σ × σ) = (.ok t, s') ↔ _
  simp [eq_comm]

theorem outcome_get_bind (f : σ → ExceptT Error (StateM σ) α) (s : σ) :
    outcome (get >>= f) s = outcome (f s) s :=
  rfl

/-- A step that starts from the state. -/
theorem yields_get_bind {f : σ → ExceptT Error (StateM σ) α} :
    Yields (get >>= f) s a s' ↔ Yields (f s) s a s' := by
  rw [yields_bind]
  constructor
  · rintro ⟨t, s₁, h, h'⟩
    obtain ⟨rfl, rfl⟩ := yields_get.mp h
    exact h'
  · intro h
    exact ⟨s, s, yields_get.mpr ⟨rfl, rfl⟩, h⟩

@[simp] theorem yields_map {x : ExceptT Error (StateM σ) α} {f : α → β} {b : β} :
    Yields (f <$> x) s b s' ↔ ∃ a, Yields x s a s' ∧ b = f a := by
  rw [map_eq_pure_bind, yields_bind]
  constructor
  · rintro ⟨a, _, h, h'⟩
    obtain ⟨rfl, rfl⟩ := yields_pure.mp h'
    exact ⟨a, h, rfl⟩
  · rintro ⟨a, h, rfl⟩
    exact ⟨a, s', h, yields_pure.mpr ⟨rfl, rfl⟩⟩

@[simp] theorem yields_discard {x : ExceptT Error (StateM σ) α} :
    Yields (discard x) s u s' ↔ ∃ a, Yields x s a s' := by
  have h : Yields ((fun _ => ⟨⟩) <$> x) s u s' ↔ ∃ a, Yields x s a s' := by simp
  exact h

@[simp] theorem yields_set {t : σ} :
    Yields (set t : ExceptT Error (StateM σ) PUnit) s u s' ↔ s' = t := by
  show ((Except.ok ⟨⟩, t) : Except Error PUnit × σ) = (.ok u, s') ↔ _
  simp [eq_comm]

@[simp] theorem yields_modify {f : σ → σ} :
    Yields (modify f : ExceptT Error (StateM σ) PUnit) s u s' ↔ s' = f s := by
  show ((Except.ok ⟨⟩, f s) : Except Error PUnit × σ) = (.ok u, s') ↔ _
  simp [eq_comm]

@[simp] theorem not_yields_throw :
    ¬ Yields (throw e : ExceptT Error (StateM σ) α) s a s' := by
  show ¬ ((Except.error e, s) : Except Error α × σ) = (.ok a, s')
  simp

@[simp] theorem not_yields_refuse {fault : Fault} {s s' : Scope} :
    ¬ Yields (refuse fault) s a s' :=
  not_yields_throw

theorem outcome_tryCatch (x : ExceptT Error (StateM σ) α) (f : Error → ExceptT Error (StateM σ) α)
    (s : σ) : outcome (tryCatch x f) s = match outcome x s with
      | (.ok a, s₁) => (.ok a, s₁)
      | (.error e, s₁) => outcome (f e) s₁ := by
  show StateT.run (tryCatch x f).run s = match StateT.run x.run s with
    | (.ok a, s₁) => (.ok a, s₁)
    | (.error e, s₁) => outcome (f e) s₁
  rw [ExceptT.run_tryCatch, StateT.run_bind]
  rcases StateT.run x.run s with ⟨e | a, s₁⟩ <;> rfl

/-- A step that only changes how refusals look succeeds when the step itself does. -/
theorem yields_tryCatch {x : ExceptT Error (StateM σ) α} {f : Error → ExceptT Error (StateM σ) α}
    (hf : ∀ e s b s', ¬ Yields (f e) s b s') : Yields (tryCatch x f) s a s' ↔ Yields x s a s' := by
  unfold Yields
  rw [outcome_tryCatch]
  rcases outcome x s with ⟨e | b, s₁⟩
  · constructor
    · intro hy
      exact absurd hy (hf e s₁ a s')
    · rintro ⟨⟩
  · rfl

/-- Whether the step succeeds with a result and a state that pass a test. -/
def succeeds (x : ExceptT Error (StateM σ) α) (s : σ) (test : α → σ → Bool) : Bool :=
  match outcome x s with
  | (.ok a, s') => test a s'
  | (.error _, _) => false

theorem exists_of_succeeds (x : ExceptT Error (StateM σ) α) (s : σ) (test : α → σ → Bool)
    (h : succeeds x s test = true) : ∃ a s', Yields x s a s' ∧ test a s' = true := by
  unfold succeeds at h
  split at h
  · exact ⟨_, _, ‹_›, h⟩
  · cases h

/-- A step has one outcome. -/
theorem Yields.unique {x : ExceptT Error (StateM σ) α} {s₁ s₂ : σ} (h₁ : Yields x s a s₁)
    (h₂ : Yields x s b s₂) : a = b ∧ s₁ = s₂ := by
  have h : ((Except.ok a, s₁) : Except Error α × σ) = (.ok b, s₂) := h₁.symm.trans h₂
  simpa using h

theorem outcome_liftM (e : Except Error α) (s : σ) :
    outcome (liftM e : ExceptT Error (StateM σ) α) s = (e, s) := by
  cases e <;> rfl

/-! ### Outcomes, successful or not -/

/-- What is known of the outcome of a step that was started in `s`: the state after it is related
to `s`, whether the step succeeds or not, and a result has the property `Q` there. -/
structure Leads (R : σ → σ → Prop) (s : σ) (Q : α → σ → Prop) (r : Except Error α × σ) :
    Prop where
  rel : R s r.2
  result : ∀ a, r.1 = .ok a → Q a r.2

/-- The step leaves the state alone, whether it succeeds or not. -/
def Still (x : ExceptT Error (StateM σ) α) : Prop :=
  ∀ s, (outcome x s).2 = s

variable {R : σ → σ → Prop} {Q Q' : α → σ → Prop} {P : β → σ → Prop}
  {x : ExceptT Error (StateM σ) α} {f : α → ExceptT Error (StateM σ) β}

theorem Leads.of_yields {r : Except Error α × σ} (h : Leads R s Q r) (hr : r = (.ok a, s')) :
    R s s' ∧ Q a s' := by
  subst hr
  exact ⟨h.rel, h.result a rfl⟩

theorem Leads.imp {r : Except Error α × σ} (h : Leads R s Q r)
    (hQ : ∀ a s', R s s' → Q a s' → Q' a s') : Leads R s Q' r :=
  ⟨h.rel, fun a ha => hQ a r.2 h.rel (h.result a ha)⟩

theorem leads_pure (h : R s s) (ha : Q a s) :
    Leads R s Q (outcome (pure a : ExceptT Error (StateM σ) α) s) :=
  ⟨h, fun _ hb => Except.ok.inj hb ▸ ha⟩

theorem leads_throw (h : R s s) (e : Error) :
    Leads R s Q (outcome (throw e : ExceptT Error (StateM σ) α) s) :=
  ⟨h, fun _ hb => nomatch hb⟩

/-- A sequence leads where its parts lead, one after the other. -/
theorem Leads.bind [Trans R R R] (hx : Leads R s Q (outcome x s))
    (hf : ∀ a s₁, R s s₁ → Q a s₁ → Leads R s₁ P (outcome (f a) s₁)) :
    Leads R s P (outcome (x >>= f) s) := by
  rw [outcome_bind]
  rcases hr : outcome x s with ⟨e | a, s₁⟩ <;> rw [hr] at hx
  · exact ⟨hx.rel, fun b hb => nomatch hb⟩
  · have hnext := hf a s₁ hx.rel (hx.result a rfl)
    exact ⟨Trans.trans hx.rel hnext.rel, hnext.result⟩

theorem Leads.discard (hx : Leads R s Q (outcome x s)) :
    Leads R s (fun _ _ => True) (outcome (Functor.discard x) s) := by
  refine ⟨?_, fun _ _ => trivial⟩
  show R s (outcome ((fun _ => PUnit.unit) <$> x) s).2
  rw [map_eq_pure_bind, outcome_bind]
  rcases hr : outcome x s with ⟨_ | _, _⟩ <;> rw [hr] at hx <;> exact hx.rel

/-- A step that leaves the state alone comes first. -/
theorem Still.leads_bind (hx : Still x) (h : R s s)
    (hf : ∀ a, Yields x s a s → Leads R s P (outcome (f a) s)) :
    Leads R s P (outcome (x >>= f) s) := by
  have hs := hx s
  rw [outcome_bind]
  rcases hr : outcome x s with ⟨e | a, s₁⟩ <;> rw [hr] at hs <;> subst hs
  · exact ⟨h, fun b hb => nomatch hb⟩
  · exact hf a hr

theorem Still.leads (hx : Still x) (h : R s s) (hQ : ∀ a, Yields x s a s → Q a s) :
    Leads R s Q (outcome x s) := by
  have hs := hx s
  rcases hr : outcome x s with ⟨e | a, s₁⟩ <;> rw [hr] at hs <;> subst hs
  · exact ⟨h, fun b hb => nomatch hb⟩
  · exact ⟨h, fun b hb => Except.ok.inj hb ▸ hQ a hr⟩

theorem Still.state_eq (hx : Still x) (h : Yields x s a s') : s' = s := by
  have hs := hx s
  rwa [show outcome x s = _ from h] at hs

theorem leads_tryCatch [Trans R R R] {g : Error → ExceptT Error (StateM σ) α}
    (hx : Leads R s Q (outcome x s))
    (hg : ∀ e s₁, R s s₁ → Leads R s₁ Q (outcome (g e) s₁)) :
    Leads R s Q (outcome (tryCatch x g) s) := by
  rw [outcome_tryCatch]
  rcases hr : outcome x s with ⟨e | a, s₁⟩ <;> rw [hr] at hx
  · have hnext := hg e s₁ hx.rel
    exact ⟨Trans.trans hx.rel hnext.rel, hnext.result⟩
  · exact hx

theorem still_pure (a : α) : Still (pure a : ExceptT Error (StateM σ) α) :=
  fun _ => rfl

theorem still_throw (e : Error) : Still (throw e : ExceptT Error (StateM σ) α) :=
  fun _ => rfl

theorem still_get : Still (get : ExceptT Error (StateM σ) σ) :=
  fun _ => rfl

theorem still_liftM (e : Except Error α) : Still (liftM e : ExceptT Error (StateM σ) α) := by
  intro s
  rw [outcome_liftM]

theorem still_tryCatch {g : Error → ExceptT Error (StateM σ) α} (hx : Still x)
    (hg : ∀ e, Still (g e)) : Still (tryCatch x g) := by
  intro s
  have hs := hx s
  rw [outcome_tryCatch]
  rcases hr : outcome x s with ⟨e | a, s₁⟩ <;> rw [hr] at hs <;> subst hs
  · exact hg e _
  · rfl

theorem Still.bind (hx : Still x) (hf : ∀ a, Still (f a)) : Still (x >>= f) := by
  intro s
  have hs := hx s
  rw [outcome_bind]
  rcases hr : outcome x s with ⟨e | a, s₁⟩ <;> rw [hr] at hs <;> subst hs
  · rfl
  · exact hf a _

/-! ### Results and errors -/

/-- What is known of either outcome of a step: a result has the property `Q` in the state after the
step, and an error the property `E`. -/
structure Ends (Q : α → σ → Prop) (E : Error → σ → Prop) (r : Except Error α × σ) : Prop where
  result : ∀ a, r.1 = .ok a → Q a r.2
  error : ∀ e, r.1 = .error e → E e r.2

variable {E E' : Error → σ → Prop}

theorem ends_pure (h : Q a s) : Ends Q E (outcome (pure a : ExceptT Error (StateM σ) α) s) :=
  ⟨fun _ hb => Except.ok.inj hb ▸ h, fun _ he => nomatch he⟩

theorem ends_throw (h : E e s) :
    Ends Q E (outcome (throw e : ExceptT Error (StateM σ) α) s) :=
  ⟨fun _ hb => (nomatch hb), fun _ he => Except.error.inj he ▸ h⟩

theorem Ends.of_error {r : Except Error α × σ} (h : Ends Q E r) (he : r = (.error e, s)) :
    E e s := by
  subst he
  exact h.error e rfl

theorem Ends.of_ok {r : Except Error α × σ} (h : Ends Q E r) (ha : r = (.ok a, s)) : Q a s := by
  subst ha
  exact h.result a rfl

theorem Ends.bind (hx : Ends Q E (outcome x s))
    (hf : ∀ a s₁, Q a s₁ → Ends P E (outcome (f a) s₁)) : Ends P E (outcome (x >>= f) s) := by
  rw [outcome_bind]
  rcases hr : outcome x s with ⟨e | a, s₁⟩ <;> rw [hr] at hx
  · exact ⟨fun _ hb => (nomatch hb), fun e' he => Except.error.inj he ▸ hx.error e rfl⟩
  · exact hf a s₁ (hx.result a rfl)

theorem Yields.ends_bind (h : Yields x s a s') (hf : Ends P E (outcome (f a) s')) :
    Ends P E (outcome (x >>= f) s) := by
  rw [outcome_bind, show outcome x s = _ from h]
  exact hf

theorem Ends.tryCatch {g : Error → ExceptT Error (StateM σ) α} (hx : Ends Q E' (outcome x s))
    (hg : ∀ e s₁, E' e s₁ → Ends Q E (outcome (g e) s₁)) :
    Ends Q E (outcome (MonadExcept.tryCatch x g) s) := by
  rw [outcome_tryCatch]
  rcases hr : outcome x s with ⟨e | a, s₁⟩ <;> rw [hr] at hx
  · exact hg e s₁ (hx.error e rfl)
  · exact ⟨hx.result, fun _ he => nomatch he⟩

theorem Ends.imp {r : Except Error α × σ} (h : Ends Q E r) (hQ : ∀ a s', Q a s' → Q' a s')
    (hE : ∀ e s', E e s' → E' e s') : Ends Q' E' r :=
  ⟨fun a ha => hQ a _ (h.result a ha), fun e he => hE e _ (h.error e he)⟩

end

end Avroc
