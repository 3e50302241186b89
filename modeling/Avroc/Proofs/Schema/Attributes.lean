import Avroc.Proofs.Schema.Cut
import Avroc.Protocol.Basic

/-!
# The rules for attributes

The aliases of types and fields are texts, the order of a field is one of those that fields may
have, and the size of a fixed type is not negative.

* `Definition.Ruled.addField` : a record that gets a field.
-/

namespace Avroc

open List

variable {d : Definition} {f : Field}

/-- Whether the value is an order that a field may have. -/
def isOrder : Json → Bool
  | .null => true
  | .string s => s = "ascending" || s = "descending" || s = "ignore"
  | _ => false

theorem isOrder_iff {v : Json} : isOrder v = true ↔ LegalOrder v := by
  cases v <;> simp [isOrder, LegalOrder, or_assoc]

/-- Whether the value is a list of texts. -/
def isTextList : Json → Bool
  | .array items => items.all isText
  | _ => false

/-- The order of the field is legal, and its aliases are texts. -/
structure Field.Ruled (f : Field) : Prop where
  order : LegalOrder f.order
  aliases : isTextList f.aliases = true

/-- The aliases of the definition are texts, a size is not negative, and its fields keep the
rules. -/
structure Definition.Ruled (d : Definition) : Prop where
  aliases : d.aliases.all isText = true
  size : ∀ size, d.body = .fixed size → 0 ≤ size
  fields : ∀ f ∈ d.body.fields, f.Ruled

instance (f : Field) : Decidable f.Ruled :=
  decidable_of_iff (isOrder f.order = true ∧ isTextList f.aliases = true)
    ⟨fun h => ⟨isOrder_iff.mp h.1, h.2⟩, fun h => ⟨isOrder_iff.mpr h.order, h.aliases⟩⟩

/-- Whether a size is not negative. -/
def Body.sizeFits : Body → Bool
  | .fixed size => 0 ≤ size
  | _ => true

theorem Body.sizeFits_iff {body : Body} :
    body.sizeFits = true ↔ ∀ size, body = .fixed size → 0 ≤ size := by
  cases body <;> simp [sizeFits]

instance (d : Definition) : Decidable d.Ruled :=
  decidable_of_iff (d.aliases.all isText = true ∧ d.body.sizeFits = true ∧
      ∀ f ∈ d.body.fields, f.Ruled)
    ⟨fun h => ⟨h.1, Body.sizeFits_iff.mp h.2.1, h.2.2⟩,
      fun h => ⟨h.aliases, Body.sizeFits_iff.mpr h.size, h.fields⟩⟩

/-- A definition without fields. -/
theorem Definition.Ruled.of_aliases (h : d.aliases.all isText = true) (hfields : d.body.fields = [])
    (hsize : d.body.sizeFits = true) : d.Ruled :=
  ⟨h, Body.sizeFits_iff.mp hsize, hfields ▸ forall_mem_nil _⟩

/-- The parameters of the message keep the rules. -/
def Message.Ruled (m : Message) : Prop :=
  ∀ f ∈ m.request, f.Ruled

theorem Definition.Ruled.addField (h : d.Ruled) (hf : f.Ruled) : (d.addField f).Ruled := by
  have hfields := forall_fields_addField h.fields hf
  rcases d.addField_cases f with he | ⟨_, _, -, he⟩ <;> rw [he] at hfields ⊢
  · exact h
  · exact ⟨h.aliases, fun size hs => (nomatch hs), hfields⟩

end Avroc
