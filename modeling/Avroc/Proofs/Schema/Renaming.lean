import Avroc.Proofs.Schema.Cut

/-!
# Renaming types

The same definitions can be drawn in another order, and then stand at other places of a catalog.
`Schema.rename σ` replaces every named type of a type by the one that `σ` leads to.  While the
definitions are drawn, some records lack their last fields: a value that belongs to a type of the
finished catalog belongs to the renamed type at every moment, as fewer fields ask for less.

* `Json.fits_rename` : **a value that belongs to a type belongs to the renamed type.**
-/

namespace Avroc

open List

variable {d : Definition} {n : Nat} {t : Schema} {fields : List Field} {id : TypeId}
  {σ : TypeId → TypeId} {c c' : Catalog} {v : Json}

/-! ### Types and definitions -/

namespace Schema

mutual

/-- The type with every named type replaced. -/
def rename (σ : TypeId → TypeId) : Schema → Schema
  | primitive kind props => primitive kind props
  | array items props => array (rename σ items) props
  | map values props => map (rename σ values) props
  | union branches => union (renameAll σ branches)
  | named id => named (σ id)
termination_by structural t => t

/-- The branches of a union with every named type replaced. -/
def renameAll (σ : TypeId → TypeId) : List Schema → List Schema
  | [] => []
  | t :: ts => rename σ t :: renameAll σ ts
termination_by structural ts => ts

end

theorem renameAll_eq (ts : List Schema) : renameAll σ ts = ts.map (rename σ) := by
  induction ts with
  | nil => rfl
  | cons t ts ih => rw [renameAll, ih, map_cons]

@[simp] theorem isUnion_rename (t : Schema) : (t.rename σ).isUnion = t.isUnion := by
  cases t <;> rfl

/-- A type and its renaming show the same, as far as the renaming leads to types that are there. -/
theorem alike_rename (h : (t.rename σ).Within n) :
    t.Alike (fun a b => b = σ a ∧ b.index < n) (t.rename σ) := by
  refine Alike.over ?_ h
  clear h
  induction t using nestedInduction with
  | primitive kind props => exact ⟨props, rfl, rfl⟩
  | array items props ih => exact ⟨_, props, rfl, ih, rfl⟩
  | map values props ih => exact ⟨_, props, rfl, ih, rfl⟩
  | union branches ih =>
    refine ⟨_, rfl, allAlike_iff.mpr ?_⟩
    rwa [renameAll_eq, List.forall₂_map_right_iff, List.forall₂_same]
  | named id => exact ⟨_, rfl, rfl⟩

theorem Alike.rename {ρ τ : Matching} {u : Schema} (hρ : ∀ a b, ρ a b → τ (σ a) (σ b))
    (h : t.Alike ρ u) : (t.rename σ).Alike τ (u.rename σ) := by
  refine Alike.induction ?primitive ?array ?map ?union ?named h
  case primitive => exact fun _ hp => ⟨_, rfl, hp⟩
  case array => exact fun _ ih hp => ⟨_, _, rfl, ih, hp⟩
  case map => exact fun _ ih hp => ⟨_, _, rfl, ih, hp⟩
  case union =>
    intro ts us _ ih
    refine ⟨_, rfl, allAlike_iff.mpr ?_⟩
    rwa [renameAll_eq, renameAll_eq, List.forall₂_map_left_iff, List.forall₂_map_right_iff]
  case named => exact fun hab => ⟨_, rfl, hρ _ _ hab⟩

theorem Over.rename {P : TypeId → Prop} (h : t.Over fun id => P (σ id)) : (t.rename σ).Over P :=
  Alike.rename (fun _ _ hab => ⟨congrArg σ hab.1, hab.2⟩) h

end Schema

/-- The field with every named type replaced. -/
def Field.rename (σ : TypeId → TypeId) (f : Field) : Field :=
  { f with type := f.type.rename σ }

/-- The parts of a named type, with every named type replaced. -/
def Body.rename (σ : TypeId → TypeId) : Body → Body
  | .record isError fields => .record isError (fields.map (Field.rename σ))
  | body => body

/-- The definition with every named type replaced. -/
def Definition.rename (σ : TypeId → TypeId) (d : Definition) : Definition :=
  { d with body := d.body.rename σ }

@[simp] theorem Body.fields_rename (b : Body) :
    (b.rename σ).fields = b.fields.map (Field.rename σ) := by
  cases b <;> rfl

@[simp] theorem Definition.body_rename (d : Definition) : (d.rename σ).body = d.body.rename σ :=
  rfl

theorem Definition.body_rename_record {isError : Bool} (h : d.body = .record isError fields) :
    (d.rename σ).body = .record isError (fields.map (Field.rename σ)) := by
  rw [body_rename, h]
  rfl

theorem Definition.rename_of_not_record (h : ∀ isError fields, d.body ≠ .record isError fields) :
    d.rename σ = d := by
  have hbody : d.body.rename σ = d.body := by
    cases hb : d.body with
    | record isError fields => exact absurd hb (h isError fields)
    | enum | fixed => rfl
  rw [rename, hbody]

theorem Field.alike_rename {f : Field} (h : (f.type.rename σ).Within n) :
    f.Alike (fun a b => b = σ a ∧ b.index < n) (f.rename σ) :=
  ⟨rfl, Schema.alike_rename h, rfl, rfl, rfl, rfl, rfl⟩

theorem Definition.alike_rename (h : ∀ f ∈ (d.rename σ).body.fields, f.type.Within n) :
    d.Alike (fun a b => b = σ a ∧ b.index < n) (d.rename σ) := by
  refine ⟨rfl, rfl, rfl, rfl, rfl, ?_⟩
  rw [Definition.body_rename] at h ⊢
  cases hb : d.body with
  | record isError fields =>
    rw [hb] at h
    refine ⟨_, rfl, ?_⟩
    rw [List.forall₂_map_right_iff, List.forall₂_same]
    exact fun f hf => Field.alike_rename (h _ (mem_map_of_mem hf))
  | enum | fixed => rfl

/-! ### Catalogs -/

theorem Definition.Cut.fullName_eq {e : Definition} (h : d.Cut e) : d.fullName = e.fullName := by
  obtain ⟨fs, rfl⟩ := h
  induction fs generalizing d with
  | nil => rfl
  | cons f fs ih => rw [foldl_cons, ← ih, Definition.addField_fullName]

/-- The second catalog has definitions of the first at their new places; its records may lack their
last fields. -/
def Catalog.Redraws (σ : TypeId → TypeId) (c c' : Catalog) : Prop :=
  ∀ a, (σ a).index < c'.size → (c'.definition (σ a)).Cut ((c.definition a).rename σ)

section
variable (h : c.Redraws σ c')
include h

theorem Catalog.Redraws.fullName_eq {a : TypeId} (ha : (σ a).index < c'.size) :
    c'.fullName (σ a) = c.fullName a :=
  (h a ha).fullName_eq

theorem Catalog.Redraws.branchKey_eq (ht : (t.rename σ).Within c'.size) :
    (t.rename σ).branchKey c' = t.branchKey c := by
  cases t with
  | primitive | array | map | union => rfl
  | named id =>
    obtain ⟨_, -, -, hlt⟩ := ht
    exact h.fullName_eq hlt

/-- A record that has its first `n` fields so far is drawn from what it is cut to. -/
theorem Catalog.Redraws.keep (hid : id.index < c.size)
    (hcurrent : c'.definition (σ id) = ((c.definition id).keep n).rename σ) :
    (c.keep id n).Redraws σ c' := by
  intro a ha
  rw [Catalog.keep]
  by_cases he : a = id
  · rw [he, definition_modify_self hid, hcurrent]
    exact .refl _
  · rw [definition_modify_of_ne he]
    exact h a ha

end

/-! ### Values -/

/-- **A value that belongs to a type of the catalog belongs to the renamed type**, where the
definitions are drawn again. -/
theorem Json.fits_rename (hσ : c.Redraws σ c') (hc : c'.Closed) (ht : (t.rename σ).Within c'.size)
    (h : v.fits c t = true) : v.fits c' (t.rename σ) = true := by
  refine ((belongs_of_fits h).of_subsumes ?_ (Schema.alike_rename ht)).fits
  rintro a _ ⟨rfl, ha⟩
  have hcut := hσ a ha
  cases hb : (c.definition a).body with
  | record isError fields =>
    obtain ⟨kept, hkept, hfirst⟩ := hcut.of_record (Definition.body_rename_record hb)
    refine ⟨kept, hkept, fun g hg => ?_⟩
    obtain ⟨f, hf, rfl⟩ := mem_map.mp (hfirst.subset hg)
    exact ⟨f, hf, rfl, Schema.alike_rename (hc (σ a) ha _ (by rwa [hkept])), rfl⟩
  | enum | fixed =>
    rw [hcut.eq_of_not_record' (by simp [hb, Body.rename]), Definition.body_rename, hb]
    rfl

end Avroc
