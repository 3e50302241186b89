import Avroc.Proofs.Schema.Agree
import Avroc.Proofs.Schema.Document
import Avroc.Proofs.Schema.Occurrence
import Avroc.Proofs.Schema.Steady
import Avroc.Proofs.Schema.Tidy

/-!
# Reading in two states

One document is read in two states that need not know the same names.  Names that both know lead
to alike definitions, the document defines no name that either of them knows, and each of its
references can only mean one full name.  Then the two readings go side by side: where both succeed
the results are alike, a reading that succeeds does so too where more names are known, and where
the same names are known the errors are the same as well.
-/

namespace Avroc

variable {f f' : Field} {name : String} {d : Definition} {id id' : TypeId} {ts us : List Schema}

/-- The matching with the types that are defined next. -/
def Matching.withNext (ρ : Matching) (s s' : Scope) : Matching :=
  fun a b => ρ a b ∨ a = ⟨s.catalog.size⟩ ∧ b = ⟨s'.catalog.size⟩

/-- Two states in which a document is read, with the file that holds it and the full names that it
may define.  `forth` says that the second state knows all names of the first, and `back` the
converse. -/
structure Comparison where
  path : Path
  first : Scope
  second : Scope
  own : String → Prop
  forth : Prop
  back : Prop

theorem Scope.contains_enter (s : Scope) (d : Definition) (name : String) :
    (s.enter d).registry.contains name = (name == d.fullName || s.registry.contains name) := by
  rw [enter, Registry.contains, Registry.get?_add]
  split <;> simp_all [Registry.contains]

namespace Comparison

variable {k : Comparison} {ρ : Matching} {s s' : Scope}

/-- The name may be known in one of the states. -/
def Has (k : Comparison) (name : String) : Prop :=
  k.first.registry.contains name = true ∨ k.second.registry.contains name = true ∨ k.own name

/-- A definition is one that the document may make, and a reference can mean one full name only,
unless the two states know the same names. -/
def Fine (k : Comparison) : Occurrence → Prop
  | .definition fullName => k.own fullName
  | .reference name space => k.forth ∧ k.back ∨ ∀ text, space.bind spaceOf = some text →
      '.' ∉ name.toList → ¬ (k.Has (text ++ "." ++ name) ∧ k.Has name)

/-- Two states that have been reached side by side. -/
structure Tied (k : Comparison) (ρ : Matching) (s s' : Scope) : Prop where
  adds : k.first.Adds k.own s
  adds' : k.second.Adds k.own s'
  agree : Agree ρ s s'
  /-- A type that the document has defined matches no other. -/
  fresh : ∀ a b a' b', ρ a b → ρ a' b' → k.first.catalog.size ≤ a.index → (a = a' ↔ b = b')
  since : ∀ a b, ρ a b → (k.first.catalog.size ≤ a.index ↔ k.second.catalog.size ≤ b.index)
  same : ∀ name, k.own name → s.registry.contains name = s'.registry.contains name
  forth : k.forth → ∀ name, s.registry.contains name = true → s'.registry.contains name = true
  back : k.back → ∀ name, s'.registry.contains name = true → s.registry.contains name = true

/-- How two outcomes go together: both succeed with results related by `A`, or both fail, or one
of them lacks a name that the other knows. -/
inductive Paired {α β : Type} (k : Comparison) (ρ : Matching) (A : Matching → α → β → Prop) :
    Except Error α × Scope → Except Error β × Scope → Prop
  | both {σ : Matching} {a : α} {b : β} {t t' : Scope} :
      (∀ i j, ρ i j → σ i j) → k.Tied σ t t' → A σ a b → Paired k ρ A (.ok a, t) (.ok b, t')
  | fail {e e' : Error} {t t' : Scope} :
      (k.forth → k.back →
        e = e' ∧ e.OfDocument k.path ∧ k.first.Adds k.own t ∧ k.second.Adds k.own t') →
      Paired k ρ A (.error e, t) (.error e', t')
  | left {a : α} {e : Error} {t t' : Scope} : ¬ k.forth → Paired k ρ A (.ok a, t) (.error e, t')
  | right {e : Error} {b : β} {t t' : Scope} : ¬ k.back → Paired k ρ A (.error e, t) (.ok b, t')

section
variable {α β γ δ : Type} {A : Matching → α → β → Prop} {B : Matching → γ → δ → Prop}

theorem Paired.mono {σ : Matching} (h : ∀ i j, ρ i j → σ i j) {r : Except Error α × Scope}
    {r' : Except Error β × Scope} (hp : k.Paired σ A r r') : k.Paired ρ A r r' := by
  cases hp with
  | both hσ ht ha => exact .both (fun i j hij => hσ i j (h i j hij)) ht ha
  | fail he => exact .fail he
  | left hf => exact .left hf
  | right hb => exact .right hb

/-- Two sequences go side by side when their first steps do, and their second steps from wherever
the first have led. -/
theorem Paired.bind {x : Reading α} {x' : Reading β} {f : α → Reading γ} {f' : β → Reading δ}
    (hx : k.Paired ρ A (outcome x s) (outcome x' s'))
    (hf : ∀ σ a b t t', (∀ i j, ρ i j → σ i j) → k.Tied σ t t' → A σ a b →
      k.Paired σ B (outcome (f a) t) (outcome (f' b) t')) :
    k.Paired ρ B (outcome (x >>= f) s) (outcome (x' >>= f') s') := by
  rw [outcome_bind, outcome_bind]
  generalize outcome x s = r at hx
  generalize outcome x' s' = r' at hx
  cases hx with
  | both hσ ht ha => exact (hf _ _ _ _ _ hσ ht ha).mono hσ
  | fail he => exact .fail he
  | @left a e t t' hn =>
    show k.Paired ρ B (outcome (f a) t) _
    rcases outcome (f a) t with ⟨e' | c, u⟩
    · exact .fail fun hforth => absurd hforth hn
    · exact .left hn
  | @right e b t t' hn =>
    show k.Paired ρ B _ (outcome (f' b) t')
    rcases outcome (f' b) t' with ⟨e' | c, u⟩
    · exact .fail fun _ hback => absurd hback hn
    · exact .right hn

theorem Tied.paired_pure (h : k.Tied ρ s s') {a : α} {b : β} (ha : A ρ a b) :
    k.Paired ρ A (outcome (pure a : Reading α) s) (outcome (pure b : Reading β) s') :=
  .both (fun _ _ hij => hij) h ha

theorem Tied.paired_throw (h : k.Tied ρ s s') {e : Error} (he : e.OfDocument k.path) :
    k.Paired ρ A (outcome (throw e : Reading α) s) (outcome (throw e : Reading β) s') :=
  .fail fun _ _ => ⟨rfl, he, h.adds, h.adds'⟩

theorem Tied.paired_refuse (h : k.Tied ρ s s') (fault : Fault) :
    k.Paired ρ A (outcome (refuse fault : Reading α) s)
      (outcome (refuse fault : Reading β) s') :=
  h.paired_throw (Error.ofDocument_parse _ _ _ _)

/-- A steady step comes first on both sides, with the same result. -/
theorem Tied.paired_steady (h : k.Tied ρ s s') {ε : Type} {x : Reading ε}
    {misuse : Misuse → Prop} (hx : Steady x misuse) {f : ε → Reading γ} {f' : ε → Reading δ}
    (hf : ∀ a, Yields x s a s → k.Paired ρ B (outcome (f a) s) (outcome (f' a) s')) :
    k.Paired ρ B (outcome (x >>= f) s) (outcome (x >>= f') s') := by
  have hs := hx.state s
  have hs' := hx.state s'
  have hr := hx.result s s' h.agree.checksNames
  have he := hx.refusal s
  rw [outcome_bind, outcome_bind]
  rcases h₁ : outcome x s with ⟨e | a, t⟩ <;> rcases h₂ : outcome x s' with ⟨e' | a', t'⟩ <;>
    rw [h₁] at hs hr he <;> rw [h₂] at hs' hr
  · obtain rfl : e = e' := Except.error.inj hr
    obtain rfl : t = s := hs
    obtain rfl : t' = s' := hs'
    exact h.paired_throw ((he e rfl).ofDocument k.path)
  · cases hr
  · cases hr
  · obtain rfl : t = s := hs
    obtain rfl : t' = s' := hs'
    obtain rfl : a = a' := Except.ok.inj hr
    exact hf a h₁

end

/-! ### Names -/

/-- How two searches for a name go together. -/
inductive Found (k : Comparison) (ρ : Matching) : Option TypeId → Option TypeId → Prop
  | both {a b : TypeId} : ρ a b → Found k ρ (some a) (some b)
  | left {a : TypeId} : ¬ k.forth → Found k ρ (some a) none
  | right {b : TypeId} : ¬ k.back → Found k ρ none (some b)
  | neither : Found k ρ none none

theorem Tied.found_get? (h : k.Tied ρ s s') (name : String) :
    k.Found ρ (s.registry.get? name) (s'.registry.get? name) := by
  cases hs : s.registry.get? name with
  | none =>
    cases hs' : s'.registry.get? name with
    | none => exact .neither
    | some b =>
      refine .right fun hk => Bool.eq_false_iff.mp (Registry.contains_eq_false_iff.mpr hs) ?_
      exact h.back hk name (Registry.contains_of_get? hs')
  | some a =>
    cases hs' : s'.registry.get? name with
    | none =>
      refine .left fun hk => Bool.eq_false_iff.mp (Registry.contains_eq_false_iff.mpr hs') ?_
      exact h.forth hk name (Registry.contains_of_get? hs)
    | some b => exact .both (h.agree.named name a b hs hs')

/-- A name that neither state can have is found in neither. -/
theorem Tied.get?_eq_none (h : k.Tied ρ s s') (hn : ¬ k.Has name) :
    s.registry.get? name = none ∧ s'.registry.get? name = none :=
  ⟨Registry.contains_eq_false_iff.mp (Bool.eq_false_iff.mpr fun hc =>
      hn ((h.adds.contains_cases hc).imp_right .inr)),
    Registry.contains_eq_false_iff.mp (Bool.eq_false_iff.mpr fun hc =>
      hn (.inr (h.adds'.contains_cases hc)))⟩

/-- Where both states know the same names, a search that fails on one side fails on the other. -/
theorem Found.or (hk : k.forth ∧ k.back) {a b a' b' : Option TypeId} (h : k.Found ρ a b)
    (h' : k.Found ρ a' b') : k.Found ρ (a.or a') (b.or b') := by
  cases h with
  | both hab => exact .both hab
  | left hn => exact absurd hk.1 hn
  | right hn => exact absurd hk.2 hn
  | neither => exact h'

/-- A reference is searched for on both sides under the one full name that it can mean, or among
the same names. -/
theorem Tied.found_resolve (h : k.Tied ρ s s') {space : Option String}
    (hfine : k.Fine (.reference name space)) :
    k.Found ρ (s.registry.resolve name space) (s'.registry.resolve name space) := by
  unfold Registry.resolve
  by_cases hdot : name.toList.contains '.' = true
  · rw [if_pos hdot, if_pos hdot]
    exact h.found_get? name
  · rw [if_neg hdot, if_neg hdot]
    cases hspace : space.bind spaceOf with
    | none => exact h.found_get? name
    | some text =>
      rcases hfine with hk | hone
      · exact (h.found_get? _).or hk (h.found_get? name)
      have hone := hone text hspace (by simpa using hdot)
      by_cases hq : k.Has (text ++ "." ++ name)
      · obtain ⟨hs, hs'⟩ := h.get?_eq_none fun hn => hone ⟨hq, hn⟩
        simp only [hs, hs', Option.or_none]
        exact h.found_get? _
      · obtain ⟨hs, hs'⟩ := h.get?_eq_none hq
        simp only [hs, hs', Option.none_or]
        exact h.found_get? name

theorem Tied.paired_resolveType (h : k.Tied ρ s s') {space : Space}
    (hfine : Primitive.ofName? name = none → k.Fine (.reference name space.text?)) :
    k.Paired ρ Schema.Alike (outcome (resolveType name space) s)
      (outcome (resolveType name space) s') := by
  unfold resolveType
  cases hp : Primitive.ofName? name with
  | some kind => exact h.paired_pure ⟨[], rfl, rfl⟩
  | none =>
    have hf := h.found_resolve (hfine hp)
    dsimp only
    rw [outcome_get_bind, outcome_get_bind]
    generalize s.registry.resolve name space.text? = r at hf ⊢
    generalize s'.registry.resolve name space.text? = r' at hf ⊢
    cases hf with
    | both hab => exact h.paired_pure ⟨_, rfl, hab⟩
    | left hn => exact .left hn
    | right hn => exact .right hn
    | neither => exact h.paired_refuse _

/-! ### Definitions -/

theorem Tied.enter (h : k.Tied ρ s s') (hn : s.registry.contains d.fullName = false)
    (hn' : s'.registry.contains d.fullName = false) (ho : k.own d.fullName)
    (hb : d.body.fields = []) (hd : s.registry.checksNames = true → d.Named) :
    k.Tied (ρ.withNext s s') (s.enter d) (s'.enter d) where
  adds := h.adds.enter hn ho hb hd
  adds' := h.adds'.enter hn' ho hb fun hc => hd (h.agree.checksNames.trans hc)
  agree := {
    range := by
      rintro a b (hab | ⟨rfl, rfl⟩)
      · obtain ⟨ha, hb⟩ := h.agree.range a b hab
        simp only [Scope.size_enter]
        exact ⟨Nat.lt_succ_of_lt ha, Nat.lt_succ_of_lt hb⟩
      · simp
    alike := by
      rintro a b (hab | ⟨rfl, rfl⟩)
      · obtain ⟨ha, hb⟩ := h.agree.range a b hab
        rw [Scope.definition_enter_of_lt ha, Scope.definition_enter_of_lt hb]
        exact (h.agree.alike a b hab).mono fun _ _ => .inl
      · rw [Scope.definition_enter_self, Scope.definition_enter_self]
        refine Definition.alike_self fun f hf => ?_
        rw [hb] at hf
        cases hf
    named := by
      intro name a b ha hb
      rw [Scope.enter, Registry.get?_add] at ha hb
      split at ha
      · rename_i heq
        rw [if_pos heq] at hb
        cases ha
        cases hb
        exact .inr ⟨rfl, rfl⟩
      · rename_i hne
        rw [if_neg hne] at hb
        exact .inl (h.agree.named name a b ha hb)
    checksNames := h.agree.checksNames
    checksDefaults := h.agree.checksDefaults }
  fresh := by
    rintro a b a' b' (hab | ⟨rfl, rfl⟩) (hab' | ⟨rfl, rfl⟩) ha
    · exact h.fresh a b a' b' hab hab' ha
    · obtain ⟨hlt, hlt'⟩ := h.agree.range a b hab
      constructor <;> rintro rfl
      · exact absurd hlt (Nat.lt_irrefl _)
      · exact absurd hlt' (Nat.lt_irrefl _)
    · obtain ⟨hlt, hlt'⟩ := h.agree.range a' b' hab'
      constructor <;> rintro rfl
      · exact absurd hlt (Nat.lt_irrefl _)
      · exact absurd hlt' (Nat.lt_irrefl _)
    · simp
  since := by
    rintro a b (hab | ⟨rfl, rfl⟩)
    · exact h.since a b hab
    · simp [h.adds.kept.size, h.adds'.kept.size]
  same name hname := by rw [Scope.contains_enter, Scope.contains_enter, h.same name hname]
  forth hk name := by
    rw [Scope.contains_enter, Scope.contains_enter, Bool.or_eq_true, Bool.or_eq_true]
    exact Or.imp_right (h.forth hk name)
  back hk name := by
    rw [Scope.contains_enter, Scope.contains_enter, Bool.or_eq_true, Bool.or_eq_true]
    exact Or.imp_right (h.back hk name)

/-- The document defines a type on both sides, or its full name is taken on both. -/
theorem Tied.paired_define (h : k.Tied ρ s s') (ho : k.own d.fullName) (hb : d.body.fields = [])
    (hd : s.registry.checksNames = true → d.Named) :
    k.Paired ρ (fun σ a b => σ a b ∧ k.first.catalog.size ≤ a.index) (outcome (define d) s)
      (outcome (define d) s') := by
  rw [outcome_define, outcome_define, ← h.same _ ho]
  cases hn : s.registry.contains d.fullName with
  | true =>
    rw [if_pos rfl, if_pos rfl]
    exact .fail fun _ _ => ⟨rfl, Error.ofDocument_parse _ _ _ _, h.adds, h.adds'⟩
  | false =>
    rw [if_neg Bool.false_ne_true, if_neg Bool.false_ne_true]
    exact .both (fun _ _ => .inl) (h.enter hn (h.same _ ho ▸ hn) ho hb hd)
      ⟨.inr ⟨rfl, rfl⟩, h.adds.kept.size⟩

section
variable (h : k.Tied ρ s s') (hid : ρ id id') (hnew : k.first.catalog.size ≤ id.index)
  (hf : f.Alike ρ f')
include h hid hnew hf

theorem Tied.extend :
    k.Tied ρ (s.extend id f) (s'.extend id' f') where
  adds := h.adds.extend hnew (hf.type.within_left fun a b hab => (h.agree.range a b hab).1)
  adds' := h.adds'.extend ((h.since id id' hid).mp hnew)
    (hf.type.within_right fun a b hab => (h.agree.range a b hab).2)
  agree := {
    range := by
      intro a b hab
      simpa using h.agree.range a b hab
    alike := by
      intro a b hab
      obtain ⟨ha, hb⟩ := h.agree.range a b hab
      -- the record that gets the field matches the other one and nothing else
      have hiff := h.fresh id id' a b hid hab hnew
      by_cases he : a = id
      · obtain rfl := hiff.mp he.symm
        subst he
        rw [Scope.definition_extend_self ha, Scope.definition_extend_self hb]
        exact (h.agree.alike _ _ hab).addField hf
      · have he' : b ≠ id' := fun e => he (hiff.mpr e.symm).symm
        rw [Scope.definition_extend_of_ne he, Scope.definition_extend_of_ne he']
        exact h.agree.alike a b hab
    named := h.agree.named
    checksNames := h.agree.checksNames
    checksDefaults := h.agree.checksDefaults }
  fresh := h.fresh
  since := h.since
  same := h.same
  forth := h.forth
  back := h.back

/-- The document adds a field to a record of its own on both sides, or to none. -/
theorem Tied.paired_addField :
    k.Paired ρ (fun _ _ _ => True) (outcome (addField id f) s) (outcome (addField id' f') s') := by
  have hany : (s.catalog.definition id).body.fields.any (·.name = f.name) =
      (s'.catalog.definition id').body.fields.any (·.name = f'.name) := by
    rw [hf.name]
    have hfields := (h.agree.alike id id' hid).body.fields
    generalize (s.catalog.definition id).body.fields = fs at hfields ⊢
    generalize (s'.catalog.definition id').body.fields = gs at hfields ⊢
    induction hfields with
    | nil => rfl
    | cons hg _ ih => rw [List.any_cons, List.any_cons, ih, hg.name]
  rw [outcome_addField, outcome_addField, hany]
  split
  · rw [hf.name, h.agree.alike.fullName_eq hid]
    exact .fail fun _ _ => ⟨rfl, Error.ofDocument_parse _ _ _ _, h.adds, h.adds'⟩
  · exact .both (fun _ _ hab => hab) (h.extend hid hnew hf) trivial

end

/-! ### Checks -/

theorem outcome_checkDefault_of_some {v : Json} (hv : f.default = some v) (s : Scope) :
    outcome (checkDefault f) s =
      if s.registry.checksDefaults && !v.fits s.catalog f.type then
        match f.type.document s.catalog with
        | .ok document => (.error (.parse (.badDefault f.name v document) none none), s)
        | .error cause => (.error (.misuse cause), s)
      else (.ok (), s) := by
  unfold checkDefault
  rw [hv]
  show outcome (if s.registry.checksDefaults && !v.fits s.catalog f.type then _ else _) s = _
  split
  · show outcome (orMisuse (f.type.document s.catalog) >>= fun document =>
      refuse (.badDefault f.name v document)) s = _
    cases f.type.document s.catalog <;> rfl
  · rfl

theorem Tied.paired_makeField (h : k.Tied ρ s s') (hf : f.Alike ρ f') :
    k.Paired ρ Field.Alike (outcome (makeField f) s) (outcome (makeField f') s') := by
  refine Paired.bind (A := fun _ _ _ => True) ?_ fun σ _ _ t t' hσ ht _ =>
    ht.paired_pure (hf.mono hσ)
  cases hv : f.default with
  | none =>
    have hv' : f'.default = none := hf.default ▸ hv
    rw [checkDefault, checkDefault, hv, hv']
    exact h.paired_pure trivial
  | some v =>
    have hv' : f'.default = some v := hf.default ▸ hv
    rw [outcome_checkDefault_of_some hv, outcome_checkDefault_of_some hv', h.agree.checksDefaults,
      Json.fits_alike h.agree.alike v _ _ hf.type, hf.name,
      Schema.document_alike h.agree.alike h.agree.range hf.type]
    split
    · cases f'.type.document s'.catalog with
      | ok document => exact .fail fun _ _ => ⟨rfl, Error.ofDocument_parse _ _ _ _, h.adds, h.adds'⟩
      | error cause => exact .fail fun _ _ => ⟨rfl, Error.ofDocument_misuse _ _, h.adds, h.adds'⟩
    · exact .both (fun _ _ hab => hab) h trivial

theorem Tied.paired_checkBranches (h : k.Tied ρ s s') (hts : List.Forall₂ (Schema.Alike ρ) ts us)
    (keys : List String) :
    k.Paired ρ (fun _ _ _ => True) (outcome (checkBranches keys ts) s)
      (outcome (checkBranches keys us) s') := by
  induction hts generalizing keys with
  | nil => exact h.paired_pure trivial
  | @cons t u ts us ht _ ih =>
    rw [checkBranches, checkBranches, ht.isUnion_eq]
    split
    · exact h.paired_refuse _
    · show k.Paired ρ _
        (outcome (if keys.contains (t.branchKey s.catalog) then _ else _) s)
        (outcome (if keys.contains (u.branchKey s'.catalog) then _ else _) s')
      rw [ht.branchKey_eq h.agree.alike]
      split
      · exact h.paired_refuse _
      · exact ih _

theorem Tied.paired_makeUnion (h : k.Tied ρ s s') (hts : List.Forall₂ (Schema.Alike ρ) ts us) :
    k.Paired ρ Schema.Alike (outcome (makeUnion ts) s) (outcome (makeUnion us) s') := by
  refine (h.paired_checkBranches hts []).bind fun σ _ _ t t' hσ ht _ => ht.paired_pure ?_
  exact ⟨us, rfl, Schema.allAlike_iff.mpr (hts.imp fun _ _ htu => htu.mono hσ)⟩

end Comparison

end Avroc
