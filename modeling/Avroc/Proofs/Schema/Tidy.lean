import Avroc.Proofs.Schema.Laying

/-!
# Tidy definitions

A document leaves out what makes no difference: an empty documentation, the usual order of a field,
and all but the first of several attributes of one key.  What is left of a definition once it has
gone through a document is its *tidy* form.

* `Schema.Alike.tidy_right`, `Catalog.alike_tidy` : a definition and its tidy form show the same.
-/

namespace Avroc

open List

variable {ρ : Matching} {d : Definition}

@[simp] theorem givenText_givenText (text : Option String) :
    givenText (givenText text) = givenText text := by
  cases text with
  | none => rfl
  | some s => by_cases h : s = "" <;> simp [givenText, h]

/-! ### Types -/

namespace Schema

mutual

/-- The type with tidy attributes. -/
def tidy : Schema → Schema
  | primitive kind props => primitive kind props.tidy
  | array items props => array (tidy items) props.tidy
  | map values props => map (tidy values) props.tidy
  | union branches => union (tidyAll branches)
  | named id => named id
termination_by structural t => t

/-- The branches of a union with tidy attributes. -/
def tidyAll : List Schema → List Schema
  | [] => []
  | t :: ts => tidy t :: tidyAll ts
termination_by structural ts => ts

end

theorem tidyAll_eq (ts : List Schema) : tidyAll ts = ts.map tidy := by
  induction ts with
  | nil => rfl
  | cons t ts ih => rw [tidyAll, ih, map_cons]

theorem Alike.tidy_right {t u : Schema} (h : t.Alike ρ u) : t.Alike ρ u.tidy := by
  refine Alike.induction ?primitive ?array ?map ?union ?named h
  case primitive => exact fun kind hp => ⟨_, rfl, by rw [hp, Members.tidy_tidy]⟩
  case array => exact fun _ ih hp => ⟨_, _, rfl, ih, by rw [hp, Members.tidy_tidy]⟩
  case map => exact fun _ ih hp => ⟨_, _, rfl, ih, by rw [hp, Members.tidy_tidy]⟩
  case union =>
    intro ts us _ ih
    refine ⟨_, rfl, allAlike_iff.mpr ?_⟩
    rwa [tidyAll_eq, List.forall₂_map_right_iff]
  case named => exact fun hab => ⟨_, rfl, hab⟩

theorem Alike.refl (hρ : ∀ id, ρ id id) (t : Schema) : t.Alike ρ t := by
  induction t using nestedInduction with
  | primitive kind props => exact ⟨props, rfl, rfl⟩
  | array items props ih => exact ⟨items, props, rfl, ih, rfl⟩
  | map values props ih => exact ⟨values, props, rfl, ih, rfl⟩
  | union branches ih => exact ⟨branches, rfl, allAlike_iff.mpr (List.forall₂_same.mpr ih)⟩
  | named id => exact ⟨id, rfl, hρ id⟩

/-- A type and its tidy form show the same. -/
theorem alike_tidy (t : Schema) : t.Alike Eq t.tidy :=
  (Alike.refl (fun _ => rfl) t).tidy_right

end Schema

/-! ### Fields and definitions -/

/-- The order of a field, the usual one left out. -/
def tidyOrder (order : Json) : Json :=
  match order with
  | .string "ascending" => .null
  | order => order

theorem orderMember_tidyOrder (order : Json) :
    Field.orderMember (tidyOrder order) = Field.orderMember order := by
  unfold tidyOrder
  split <;> rfl

/-- The field as it comes out of a document. -/
def Field.tidy (f : Field) : Field :=
  { f with
    type := f.type.tidy, doc := givenText f.doc, order := tidyOrder f.order,
    props := f.props.tidy }

/-- The parts of a definition as they come out of a document. -/
def Body.tidy : Body → Body
  | .record isError fields => .record isError (fields.map Field.tidy)
  | body => body

/-- The definition as it comes out of a document. -/
def Definition.tidy (d : Definition) : Definition :=
  { d with doc := givenText d.doc, props := d.props.tidy, body := d.body.tidy }

theorem Field.Alike.tidy_right {f g : Field} (h : f.Alike ρ g) :
    f.Alike ρ g.tidy where
  name := h.name
  type := h.type.tidy_right
  doc := by rw [Field.tidy, givenText_givenText, h.doc]
  default := h.default
  order := by rw [Field.tidy, orderMember_tidyOrder, h.order]
  aliases := h.aliases
  props := by rw [Field.tidy, Members.tidy_tidy, h.props]

theorem Definition.Alike.tidy_right {e : Definition} (h : d.Alike ρ e) :
    d.Alike ρ e.tidy where
  name := h.name
  space := h.space
  doc := by rw [Definition.tidy, givenText_givenText, h.doc]
  aliases := h.aliases
  props := by rw [Definition.tidy, Members.tidy_tidy, h.props]
  body := by
    show d.body.Alike ρ e.body.tidy
    refine Body.Alike.cases (fun {_ _ fields'} hf => ⟨fields'.map Field.tidy, rfl, ?_⟩)
      (fun _ _ => rfl) (fun _ => rfl) h.body
    rw [List.forall₂_map_right_iff]
    exact hf.imp fun _ _ hfg => hfg.tidy_right

@[simp] theorem Definition.fullName_tidy (d : Definition) : d.tidy.fullName = d.fullName := rfl

theorem Body.fields_tidy (b : Body) : b.tidy.fields = b.fields.map Field.tidy := by
  cases b <;> rfl

theorem Definition.tidy_addField (d : Definition) (f : Field) :
    (d.addField f).tidy = d.tidy.addField f.tidy := by
  obtain ⟨name, space, doc, aliases, props, body⟩ := d
  cases body with
  | record isError fields => simp [Definition.addField, Definition.tidy, Body.tidy]
  | enum symbols default => rfl
  | fixed size => rfl

/-! ### Catalogs and states -/

/-- The definitions as they come out of a document. -/
def Catalog.tidy (c : Catalog) : Catalog :=
  ⟨c.definitions.map Definition.tidy⟩

/-- The state with tidy definitions. -/
def Scope.tidy (s : Scope) : Scope :=
  { s with catalog := s.catalog.tidy }

namespace Catalog

@[simp] theorem size_tidy (c : Catalog) : c.tidy.size = c.size := by
  simp [tidy, size]

@[simp] theorem definition_tidy (c : Catalog) (id : TypeId) :
    c.tidy.definition id = (c.definition id).tidy := by
  rw [tidy, definition, definition, getD_eq_getElem?_getD, getD_eq_getElem?_getD,
    getElem?_map]
  cases c.definitions[id.index]? <;> rfl

@[simp] theorem fullName_tidy (c : Catalog) (id : TypeId) : c.tidy.fullName id = c.fullName id := by
  rw [fullName, definition_tidy, Definition.fullName_tidy, fullName]

end Catalog

/-- A definition whose types mention what matches itself is alike to itself. -/
theorem Definition.alike_self (h : ∀ f ∈ d.body.fields, f.type.Alike ρ f.type) :
    d.Alike ρ d := by
  refine ⟨rfl, rfl, rfl, rfl, rfl, ?_⟩
  cases hd : d.body with
  | record isError fields =>
    rw [hd] at h
    refine ⟨fields, rfl, List.forall₂_same.mpr fun f hf => ?_⟩
    exact ⟨rfl, h f hf, rfl, rfl, rfl, rfl, rfl⟩
  | enum symbols default => rfl
  | fixed size => rfl

/-- **A catalog and its tidy form show the same**, at every identity. -/
theorem Catalog.alike_tidy (c : Catalog) : c.Alike Eq c.tidy := by
  rintro a _ rfl
  rw [definition_tidy]
  exact (Definition.alike_self fun f _ => Schema.Alike.refl (fun _ => rfl) f.type).tidy_right

/-- A closed catalog and its tidy form show the same, within the catalog. -/
theorem Catalog.Closed.alike_tidy {c : Catalog} (hc : c.Closed) :
    c.Alike (Matching.below c.size) c.tidy := by
  rintro a _ ⟨rfl, ha⟩
  rw [Catalog.definition_tidy]
  exact (Definition.alike_self fun f hf => hc a ha f hf).tidy_right

namespace Scope

@[simp] theorem registry_tidy (s : Scope) : s.tidy.registry = s.registry := rfl

@[simp] theorem catalog_tidy (s : Scope) : s.tidy.catalog = s.catalog.tidy := rfl

theorem tidy_enter (s : Scope) (d : Definition) : (s.enter d).tidy = s.tidy.enter d.tidy := by
  simp [enter, tidy, Catalog.tidy, Catalog.add, Catalog.size]

theorem tidy_extend (s : Scope) (id : TypeId) (f : Field) :
    (s.extend id f).tidy = s.tidy.extend id f.tidy := by
  have h : ∀ (ds : List Definition) (i : Nat),
      (ds.modify i (·.addField f)).map Definition.tidy =
        (ds.map Definition.tidy).modify i (·.addField f.tidy) := by
    intro ds
    induction ds with
    | nil => intro i; cases i <;> rfl
    | cons d ds ih =>
      intro i
      cases i with
      | zero => simp [Definition.tidy_addField]
      | succ i => simpa using ih i
  simp [extend, tidy, Catalog.tidy, Catalog.modify, h]

end Scope

end Avroc
