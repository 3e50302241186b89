import Avroc.Proofs.Schema.Read

/-!
# Steps that leave the state alone

Much of reading only looks at the document and at whether names are checked.  Such a step is
*steady*: it leaves the state as it was, and its result, be it an error, is the same in any two
states that agree on the checks.
-/

namespace Avroc

variable {misuse : Misuse → Prop} {e : Error}

/-- The path that an error names. -/
def Error.path? : Error → Option Path
  | parse _ path _ => path
  | layout path _ _ => some path
  | file _ path => path
  | _ => none

/-- An error that reading a document of the file may meet: if it is reported at all, it can be
given the path of the file. -/
def Error.OfDocument (path : Path) (e : Error) : Prop :=
  e.isReported = true → (e.withPath path).path? = some path

theorem Error.ofDocument_parse (file : Path) (fault : Fault) (path : Option Path)
    (line : Option Int) : (Error.parse fault path line).OfDocument file :=
  fun _ => rfl

theorem Error.ofDocument_misuse (file : Path) (cause : Misuse) :
    (Error.misuse cause).OfDocument file :=
  fun h => nomatch h

/-- A definition is refused, or a value is of the wrong kind for one of the reasons. -/
def Error.Refuses (misuse : Misuse → Prop) (e : Error) : Prop :=
  (∃ fault path line, e = .parse fault path line) ∨ ∃ cause, e = .misuse cause ∧ misuse cause

theorem Error.Refuses.ofDocument (h : e.Refuses misuse) (file : Path) : e.OfDocument file := by
  rcases h with ⟨fault, path, line, rfl⟩ | ⟨cause, rfl, -⟩
  · exact ofDocument_parse file fault path line
  · exact ofDocument_misuse file cause

/-- Nothing can be looked up by an array or an object. -/
def Json.Unhashable (v : Json) (cause : Misuse) : Prop :=
  ((∃ items, v = .array items) ∨ ∃ members, v = .object members) ∧ cause = .unhashable v.kind

/-- The step leaves the state alone, and its result depends on the state only through whether names
are checked; a value is of the wrong kind for one of the reasons only. -/
structure Steady {α : Type} (x : Reading α) (misuse : Misuse → Prop := fun _ => False) : Prop where
  state : ∀ s, (outcome x s).2 = s
  result : ∀ s s' : Scope, s.registry.checksNames = s'.registry.checksNames →
    (outcome x s).1 = (outcome x s').1
  refusal : ∀ s e, (outcome x s).1 = .error e → e.Refuses misuse

section
variable {α β : Type}

theorem Steady.still {x : Reading α} (h : Steady x misuse) : Still x :=
  h.state

theorem steady_pure (a : α) : Steady (pure a : Reading α) misuse :=
  ⟨fun _ => rfl, fun _ _ _ => rfl, fun _ _ h => nomatch h⟩

theorem steady_throw (he : e.Refuses misuse) : Steady (throw e : Reading α) misuse :=
  ⟨fun _ => rfl, fun _ _ _ => rfl, fun _ _ h => Except.error.inj h ▸ he⟩

theorem steady_refuse (fault : Fault) : Steady (refuse fault : Reading α) misuse :=
  steady_throw (.inl ⟨fault, none, none, rfl⟩)

theorem Steady.bind {x : Reading α} {f : α → Reading β} (hx : Steady x misuse)
    (hf : ∀ a, Steady (f a) misuse) : Steady (x >>= f) misuse := by
  constructor
  · intro s
    have hs := hx.state s
    rw [outcome_bind]
    rcases hx' : outcome x s with ⟨e | a, t⟩ <;> rw [hx'] at hs
    · exact hs
    · obtain rfl : t = s := hs
      exact (hf a).state t
  · intro s s' h
    have hs := hx.state s
    have hs' := hx.state s'
    have hr := hx.result s s' h
    rw [outcome_bind, outcome_bind]
    rcases h₁ : outcome x s with ⟨e | a, t⟩ <;> rcases h₂ : outcome x s' with ⟨e' | a', t'⟩ <;>
      rw [h₁] at hs hr <;> rw [h₂] at hs' hr
    · exact congrArg Except.error (Except.error.inj hr)
    · cases hr
    · cases hr
    · obtain rfl : t = s := hs
      obtain rfl : t' = s' := hs'
      obtain rfl : a = a' := Except.ok.inj hr
      exact (hf a).result t t' h
  · intro s e h
    have hr := hx.refusal s
    rw [outcome_bind] at h
    rcases h₁ : outcome x s with ⟨e' | a, t⟩ <;> rw [h₁] at h hr
    · exact hr e (congrArg Except.error (Except.error.inj h))
    · exact (hf a).refusal t e h

end

/-! ### Checks of names -/

theorem steady_checkName (name : String) : Steady (checkName name) := by
  have h : ∀ s, outcome (checkName name) s =
      (if s.registry.checksNames && !isLegalName name
        then .error (.parse (.illegalName name) none none) else .ok (), s) := by
    intro s
    show outcome (if s.registry.checksNames && !isLegalName name then _ else _) s = _
    split <;> rfl
  refine ⟨fun s => by rw [h], fun s s' hs => by rw [h, h, hs], fun s e he => ?_⟩
  rw [h] at he
  dsimp only at he
  split at he
  · exact .inl ⟨_, _, _, (Except.error.inj he).symm⟩
  · cases he

theorem steady_checkNames (names : List String) : Steady (checkNames names) := by
  induction names with
  | nil => exact steady_pure ()
  | cons name names ih => exact (steady_checkName name).bind fun _ => ih

theorem steady_checkSpace (space : Option String) : Steady (checkSpace space) := by
  cases space with
  | none => exact steady_pure ()
  | some text => exact steady_checkNames _

theorem steady_checkSymbols (seen : List String) (items : List Json) :
    Steady (checkSymbols seen items) := by
  induction items generalizing seen with
  | nil => exact steady_pure seen
  | cons v items ih =>
    cases v with
    | string symbol =>
      refine (steady_checkName symbol).bind fun _ => ?_
      split
      · exact steady_refuse _
      · exact ih _
    | _ => exact steady_refuse _

theorem steady_checkEnumDefault (symbols : List String) (v : Json) :
    Steady (checkEnumDefault symbols v) := by
  cases v with
  | null => exact steady_pure none
  | string s =>
    rw [checkEnumDefault]
    split
    · exact steady_pure _
    · exact steady_refuse _
  | _ => exact steady_refuse _

/-! ### Attributes -/

theorem steady_readAliases (ms : Members) : Steady (readAliases ms) := by
  unfold readAliases
  split
  · exact steady_pure _
  · split
    · exact steady_pure _
    · exact steady_refuse _
  · exact steady_refuse _

theorem steady_readSpace (ms : Members) (around : Space) : Steady (readSpace ms around) := by
  unfold readSpace
  split
  · exact steady_pure _
  · exact steady_pure _
  · exact steady_refuse _
  · split
    · exact steady_pure _
    · exact steady_pure _
    · exact steady_refuse _

theorem steady_readName (ms : Members) (around : Space) : Steady (readName ms around) := by
  unfold readName
  split
  · split
    · exact steady_refuse _
    · refine (steady_readSpace ms around).bind fun space => ?_
      exact (steady_checkName _).bind fun _ => (steady_checkSpace _).bind fun _ => steady_pure _
  · exact steady_refuse _

theorem steady_checkOrder (field : String) (order : Json) :
    Steady (checkOrder field order) order.Unhashable := by
  cases order with
  | null => exact steady_pure ()
  | string s =>
    rw [checkOrder]
    split
    · exact steady_pure _
    · exact steady_refuse _
  | array items => exact steady_throw (.inr ⟨_, rfl, .inl ⟨items, rfl⟩, rfl⟩)
  | object members => exact steady_throw (.inr ⟨_, rfl, .inr ⟨members, rfl⟩, rfl⟩)
  | _ => exact steady_refuse _

end Avroc
