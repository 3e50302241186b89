import Avroc.Proofs.Schema.Laying

/-!
# What a reader takes from a document

The checks that a definition and a field pass before they are entered, and the readers that are
prepared for the members of an object.

* `yields_readName` : the name that a definition is read under.
-/

namespace Avroc

open List

variable {ms : Members} {s s' : Scope} {around : Space} {name : String} {aliases : List Json}
  {r : String × Option String}

/-! ### Attributes -/

theorem yields_checkOrder {field : String} {order : Json} {u : Unit} :
    Yields (checkOrder field order) s u s' ↔ s' = s ∧ LegalOrder order := by
  cases order
  case null => simp [checkOrder, LegalOrder]
  case string text =>
    simp only [checkOrder, LegalOrder]
    by_cases h : text = "ascending" ∨ text = "descending" ∨ text = "ignore"
    · rw [if_pos (by simpa [or_assoc] using h), yields_pure]
      simp [h]
    · rw [if_neg (by simpa [or_assoc] using h)]
      simp [h]
  all_goals simp [checkOrder, LegalOrder]

theorem yields_readAliases :
    Yields (readAliases ms) s aliases s' ↔ s' = s ∧
      (ms.get? "aliases").getD (.array []) = .array aliases ∧ aliases.all isText = true := by
  unfold readAliases
  cases ms.get? "aliases" with
  | none =>
    simp only [yields_pure, Option.getD_none, Json.array.injEq]
    constructor
    · rintro ⟨rfl, rfl⟩
      exact ⟨rfl, rfl, rfl⟩
    · rintro ⟨rfl, rfl, -⟩
      exact ⟨rfl, rfl⟩
  | some v =>
    cases v
    case array items =>
      simp only [Option.getD_some, Json.array.injEq]
      constructor
      · intro h
        split at h
        · rename_i ht
          rw [yields_pure] at h
          obtain ⟨rfl, rfl⟩ := h
          exact ⟨rfl, rfl, ht⟩
        · simp at h
      · rintro ⟨rfl, rfl, ht⟩
        rw [if_pos ht, yields_pure]
        exact ⟨rfl, rfl⟩
    all_goals simp

/-- The simple name and the namespace of a definition come from its name, and from its namespace
where the name brings none; both are checked. -/
theorem yields_readName :
    Yields (readName ms around) s r s' ↔ ∃ written space,
      ms.get? "name" = some (.string written) ∧ written ≠ "" ∧
      Yields (readSpace ms around) s space s' ∧ splitName written space = r ∧
      (s'.registry.checksNames = true → isLegalName r.1 = true) ∧
      (s'.registry.checksNames = true → LegalSpace r.2) := by
  unfold readName
  constructor
  · intro h
    split at h
    · rename_i written hname
      split at h
      · simp at h
      · rename_i hne
        simp only [yields_bind, yields_checkName, yields_checkSpace, yields_pure] at h
        obtain ⟨space, _, hspace, _, _, ⟨rfl, hl⟩, _, _, ⟨rfl, hs⟩, rfl, rfl⟩ := h
        exact ⟨written, space, hname, hne, hspace, rfl, hl, hs⟩
    · simp at h
  · rintro ⟨written, space, hname, hne, hspace, rfl, hl, hs⟩
    rw [hname]
    simp only [if_neg hne, yields_bind, yields_checkName, yields_checkSpace, yields_pure]
    exact ⟨space, _, hspace, (), _, ⟨rfl, hl⟩, (), _, ⟨rfl, hs⟩, rfl, rfl⟩

/-- The name that the reader accepts for a definition passes the checks of names. -/
theorem named_of_readName {space : Option String}
    (h : Yields (readName ms around) s (name, space) s) (hc : s.registry.checksNames = true) :
    isLegalName name = true ∧ LegalSpace space := by
  obtain ⟨_, _, -, -, -, -, hname, hspace⟩ := yields_readName.mp h
  exact ⟨hname hc, hspace hc⟩

/-! ### Members as steps -/

theorem lookup_memberTypes (ms : Members) (key : String) :
    (memberTypes ms).lookup key = (ms.get? key).map readSchema := by
  induction ms with
  | nil => rfl
  | cons m ms ih =>
    rw [memberTypes, lookup_cons_ite, Members.get?_cons, ih]
    split <;> rfl

theorem lookup_memberFields (ms : Members) (key : String) :
    (memberFields ms).lookup key = (ms.get? key).map fieldList := by
  induction ms with
  | nil => rfl
  | cons m ms ih =>
    rw [memberFields, lookup_cons_ite, Members.get?_cons, ih]
    split <;> rfl

/-! ### Primitive types -/

@[simp] theorem Primitive.ofName?_name (kind : Primitive) : ofName? kind.name = some kind := by
  cases kind <;> rfl

theorem Primitive.eq_name_of_ofName? {kind : Primitive} (h : ofName? name = some kind) :
    name = kind.name := by
  unfold ofName? at h
  split at h <;> cases h <;> rfl

/-- A name with a dot names no primitive type. -/
theorem Primitive.ofName?_of_dot_mem (h : '.' ∈ name.toList) : ofName? name = none := by
  cases hk : ofName? name with
  | none => rfl
  | some kind =>
    rw [eq_name_of_ofName? hk] at h
    cases kind <;> simp [Primitive.name] at h

end Avroc
