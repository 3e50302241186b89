import Avroc.Proofs.Schema.Read

/-!
# The names in a document

The full names that a document defines and the names that it refers to, each reference with the
namespace around it.  Both are told by the form of the document alone: they stand there whether or
not reading gets that far.

* `definedName?_of_readName` : the reader takes the names of definitions from these places.
-/

namespace Avroc

variable {ms : Members} {around : Space} {s s' : Scope}

/-- The namespace that a definition gives, or else the one around it. -/
def givenSpace? (members : Members) (space : Space) : Option (Option String) :=
  match members.get? "namespace" with
  | some (.string s) => some (some s)
  | some .null => some none
  | some _ => none
  | none =>
    match space with
    | .root => some none
    | .named s => some (some s)
    | .odd _ => none

/-- The simple name and the namespace of a definition. -/
def definedName? (members : Members) (space : Space) : Option (String × Option String) :=
  match members.get? "name" with
  | some (.string written) =>
    if written = "" then none else (givenSpace? members space).map (splitName written)
  | _ => none

theorem givenSpace?_of_readSpace {space : Option String}
    (h : Yields (readSpace ms around) s space s') :
    givenSpace? ms around = some space := by
  revert h
  fun_cases readSpace ms around with
  | case1 | case2 | case4 | case5 => intro h; simp [givenSpace?, *, (yields_pure.mp h).1]
  | case3 | case6 => simp

theorem definedName?_of_readName {r : String × Option String}
    (h : Yields (readName ms around) s r s') : definedName? ms around = some r := by
  obtain ⟨written, space, hw, hne, hsp, rfl, -, -⟩ := yields_readName.mp h
  rw [definedName?, hw]
  simp [hne, givenSpace?_of_readSpace hsp]

/-- The words that say what kind of type an object describes. -/
def kindWords : List String :=
  ["record", "error", "enum", "fixed", "array", "map"]

/-- A place where a name stands. -/
inductive Occurrence
  | definition (fullName : String)
  | reference (name : String) (space : Option String)

/-- The document, written inside a namespace, has a name at such a place. -/
inductive Occurs : Json → Space → Occurrence → Prop
  | name {n : String} {space : Space} :
      Primitive.ofName? n = none → Occurs (.string n) space (.reference n space.text?)
  | branch {items : List Json} {v : Json} {space : Space} {o : Occurrence} :
      v ∈ items → Occurs v space o → Occurs (.array items) space o
  | type {members : Members} {v : Json} {space : Space} {o : Occurrence} :
      members.get? "type" = some v → (∀ word ∈ kindWords, v ≠ .string word) → Occurs v space o →
      Occurs (.object members) space o
  | items {members : Members} {v : Json} {space : Space} {o : Occurrence} :
      members.get? "type" = some (.string "array") → members.get? "items" = some v →
      Occurs v space o → Occurs (.object members) space o
  | values {members : Members} {v : Json} {space : Space} {o : Occurrence} :
      members.get? "type" = some (.string "map") → members.get? "values" = some v →
      Occurs v space o → Occurs (.object members) space o
  | definition {members : Members} {word name : String} {space : Space} {inside : Option String} :
      members.get? "type" = some (.string word) → word ∈ ["record", "error", "enum", "fixed"] →
      definedName? members space = some (name, inside) →
      Occurs (.object members) space (.definition (joinName name inside))
  | field {members field : Members} {word name : String} {items : List Json} {v : Json}
      {space : Space} {inside : Option String} {o : Occurrence} :
      members.get? "type" = some (.string word) → word ∈ ["record", "error"] →
      definedName? members space = some (name, inside) →
      members.get? "fields" = some (.array items) → .object field ∈ items →
      field.get? "type" = some v → Occurs v (.ofName inside) o →
      Occurs (.object members) space o

namespace Occurs

variable {members : Members} {space : Space} {o : Occurrence}

theorem of_string {n : String} (h : Occurs (.string n) space o) : o = .reference n space.text? := by
  cases h
  rfl

/-- A fixed type has one name, that of its definition. -/
theorem of_fixed (ht : members.get? "type" = some (.string "fixed"))
    (h : Occurs (.object members) space o) : ∃ name inside,
      definedName? members space = some (name, inside) ∧
        o = .definition (joinName name inside) := by
  cases h with
  | type hv hword _ =>
    cases ht.symm.trans hv
    exact absurd rfl (hword "fixed" (by decide))
  | items hv => simp [ht] at hv
  | values hv => simp [ht] at hv
  | definition _ _ hname => exact ⟨_, _, hname, rfl⟩
  | field hv hword =>
    cases ht.symm.trans hv
    exact absurd hword (by decide)

/-- A record has the name of its definition and the names in its fields. -/
theorem of_record (ht : members.get? "type" = some (.string "record"))
    (h : Occurs (.object members) space o) : ∃ name inside,
      definedName? members space = some (name, inside) ∧ (o = .definition (joinName name inside) ∨
        ∃ (items : List Json) (field : Members) (v : Json),
          members.get? "fields" = some (.array items) ∧ .object field ∈ items ∧
          field.get? "type" = some v ∧ Occurs v (.ofName inside) o) := by
  cases h with
  | type hv hword _ =>
    cases ht.symm.trans hv
    exact absurd rfl (hword "record" (by decide))
  | items hv => simp [ht] at hv
  | values hv => simp [ht] at hv
  | definition _ _ hname => exact ⟨_, _, hname, .inl rfl⟩
  | field _ _ hname hfields hmem hv ho => exact ⟨_, _, hname, .inr ⟨_, _, _, hfields, hmem, hv, ho⟩⟩

end Occurs

end Avroc
