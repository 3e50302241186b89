import Avroc.Proofs.Schema.Laying

/-!
# Cut catalogs

While a record is being read it lacks its last fields, and so do the records around it.  A catalog
is *cut* from another one when its records are as in the other up to some of their fields, and lack
the rest.

* `Json.Belongs.of_cut` : **a value that enters no record that was cut still belongs to the type.**
-/

namespace Avroc

open List

variable {isError : Bool} {d : Definition} {id : TypeId} {c c' : Catalog} {t : Schema} {v : Json}

/-! ### Definitions -/

/-- The second definition is the first with fields added at its end. -/
def Definition.Cut (d e : Definition) : Prop :=
  ∃ fs : List Field, e = fs.foldl Definition.addField d

namespace Definition

variable {e : Definition}

theorem Cut.refl (d : Definition) : d.Cut d :=
  ⟨[], rfl⟩

theorem Cut.addField (h : d.Cut e) (f : Field) : d.Cut (e.addField f) := by
  obtain ⟨fs, rfl⟩ := h
  exact ⟨fs ++ [f], by rw [foldl_append]; rfl⟩

theorem addField_of_not_record (h : ∀ isError fields, d.body ≠ .record isError fields) (f : Field) :
    d.addField f = d := by
  rcases d.addField_cases f with he | ⟨_, _, hb, -⟩
  · exact he
  · exact absurd hb (h _ _)

/-- Only records are cut. -/
theorem Cut.eq_of_not_record (h : d.Cut e)
    (hd : ∀ isError fields, d.body ≠ .record isError fields) : e = d := by
  obtain ⟨fs, rfl⟩ := h
  induction fs with
  | nil => rfl
  | cons f fs ih => rw [foldl_cons, addField_of_not_record hd, ih]

theorem Cut.record (h : d.Cut e) {fields : List Field} (hd : d.body = .record isError fields) :
    ∃ more, e.body = .record isError (fields ++ more) := by
  obtain ⟨fs, rfl⟩ := h
  exact ⟨fs, by rw [foldl_addField hd]⟩

/-- What a record was cut from has its fields first. -/
theorem Cut.of_record (h : d.Cut e) {fields : List Field} (he : e.body = .record isError fields) :
    ∃ kept, d.body = .record isError kept ∧ kept <+: fields := by
  cases hd : d.body with
  | record isError' kept =>
    obtain ⟨more, hb⟩ := h.record hd
    rw [he, Body.record.injEq] at hb
    exact ⟨kept, by rw [hb.1], more, hb.2.symm⟩
  | enum | fixed =>
    rw [h.eq_of_not_record (by simp [hd]), hd] at he
    cases he

/-- What is no record was not cut. -/
theorem Cut.eq_of_not_record' (h : d.Cut e)
    (he : ∀ isError fields, e.body ≠ .record isError fields) : d = e := by
  symm
  refine h.eq_of_not_record fun isError fields hd => ?_
  obtain ⟨more, hb⟩ := h.record hd
  exact he _ _ hb

theorem Cut.fields (h : d.Cut e) : d.body.fields ⊆ e.body.fields := by
  cases hd : d.body with
  | record isError fields =>
    obtain ⟨more, he⟩ := h.record hd
    rw [he]
    exact subset_append_left _ _
  | enum | fixed => exact nil_subset _

end Definition

/-- The parts of a named type with the first `n` fields only. -/
def Body.keep (n : Nat) : Body → Body
  | .record isError fields => .record isError (fields.take n)
  | body => body

/-- The definition with its first `n` fields only. -/
def Definition.keep (n : Nat) (d : Definition) : Definition :=
  { d with body := d.body.keep n }

theorem Definition.keep_record {fields : List Field} (h : d.body = .record isError fields)
    (n : Nat) : d.keep n = { d with body := .record isError (fields.take n) } := by
  rw [keep, h]
  rfl

theorem Definition.keep_of_not_record (h : ∀ isError fields, d.body ≠ .record isError fields)
    (n : Nat) : d.keep n = d := by
  have hbody : d.body.keep n = d.body := by
    cases hb : d.body with
    | record isError fields => exact absurd hb (h isError fields)
    | enum | fixed => rfl
  rw [keep, hbody]

/-! ### Catalogs -/

namespace Catalog

/-- The catalog in which a record has its first `n` fields only. -/
def keep (c : Catalog) (id : TypeId) (n : Nat) : Catalog :=
  c.modify id (Definition.keep n)

/-- The records of the second catalog are those of the first with fields added at their end. -/
structure Cut (c c' : Catalog) : Prop where
  size : c.size = c'.size
  definition : ∀ id, (c.definition id).Cut (c'.definition id)

/-- No record is cut but this one. -/
structure CutAt (id : TypeId) (c c' : Catalog) : Prop extends c.Cut c' where
  other : ∀ other, other ≠ id → c.definition other = c'.definition other

theorem CutAt.refl (id : TypeId) (c : Catalog) : c.CutAt id c :=
  ⟨⟨rfl, fun _ => .refl _⟩, fun _ _ => rfl⟩

end Catalog

namespace Scope

variable {s : Scope}

/-- What is cut from a state is cut from it when a field has been added. -/
theorem cut_extend (h : c.Cut s.catalog) (id : TypeId) (f : Field) :
    c.Cut (s.extend id f).catalog where
  size := h.size.trans (size_extend s id f).symm
  definition other := by
    rcases definition_extend s id f other with he | ⟨-, he⟩ <;> rw [he]
    · exact h.definition other
    · exact (h.definition other).addField f

theorem cutAt_extend (h : c.CutAt id s.catalog) (f : Field) :
    c.CutAt id (s.extend id f).catalog :=
  ⟨cut_extend h.toCut id f, fun other ho =>
    (h.other other ho).trans (definition_extend_of_ne ho s f).symm⟩

/-- No definition loses a field when another gets one. -/
theorem fields_extend (s : Scope) (id : TypeId) (f : Field) (other : TypeId) :
    (s.catalog.definition other).body.fields ⊆
      ((s.extend id f).catalog.definition other).body.fields := by
  rcases definition_extend s id f other with he | ⟨-, he⟩ <;> rw [he]
  · exact List.Subset.refl _
  · exact ((Definition.Cut.refl _).addField f).fields

/-- No definition loses a field when a definition is entered. -/
theorem fields_enter (s : Scope) (d : Definition) (id : TypeId) :
    (s.catalog.definition id).body.fields ⊆ ((s.enter d).catalog.definition id).body.fields := by
  by_cases hid : id.index < s.catalog.size
  · rw [definition_enter_of_lt hid]
    exact List.Subset.refl _
  · rw [Catalog.definition_of_size_le (Nat.le_of_not_lt hid)]
    exact nil_subset _

end Scope

/-! ### What types lead to -/

/-- The first type is the second, or has it among its parts; the parts of a record are the types of
its fields. -/
inductive Schema.Reaches (c : Catalog) : Schema → Schema → Prop
  | refl (t : Schema) : Reaches c t t
  | items {items t : Schema} {props : Members} :
      Reaches c items t → Reaches c (.array items props) t
  | values {values t : Schema} {props : Members} :
      Reaches c values t → Reaches c (.map values props) t
  | branch {branches : List Schema} {b t : Schema} :
      b ∈ branches → Reaches c b t → Reaches c (.union branches) t
  | field {id : TypeId} {f : Field} {t : Schema} :
      f ∈ (c.definition id).body.fields → Reaches c f.type t → Reaches c (.named id) t

/-- A catalog in which no definition has lost a field leads to the same types. -/
theorem Schema.Reaches.mono
    (h : ∀ id, (c.definition id).body.fields ⊆ (c'.definition id).body.fields) {u : Schema}
    (ht : t.Reaches c u) : t.Reaches c' u := by
  induction ht with
  | refl => exact .refl _
  | items _ ih => exact .items ih
  | values _ ih => exact .values ih
  | branch hb _ ih => exact .branch hb ih
  | field hf _ ih => exact .field (h _ hf) ih

/-! ### Values -/

/-- Whether the value belongs to the type depends on the fields of the record: the value, or a part
of it, is an object that stands for the record. -/
inductive Json.Enters (c : Catalog) : Json → Schema → TypeId → Prop
  | record {members : Members} {t : Schema} {id : TypeId} :
      t.leading = some (.named id) → Enters c (.object members) t id
  | item {items : List Json} {v : Json} {t type : Schema} {props : Members} {id : TypeId} :
      t.leading = some (.array type props) → v ∈ items → Enters c v type id →
      Enters c (.array items) t id
  | value {members : Members} {key : String} {v : Json} {t type : Schema} {props : Members}
      {id : TypeId} :
      t.leading = some (.map type props) → (key, v) ∈ members → Enters c v type id →
      Enters c (.object members) t id
  | member {members : Members} {v : Json} {t : Schema} {owner id : TypeId} {f : Field} :
      t.leading = some (.named owner) → f ∈ (c.definition owner).body.fields →
      members.get? f.name = some v → Enters c v f.type id → Enters c (.object members) t id

namespace Json

/-- A union has the values of its first branch, and so they enter the same records. -/
theorem Enters.union {rest : List Schema} (h : v.Enters c t id) :
    v.Enters c (.union (t :: rest)) id := by
  cases h with
  | record hl => exact .record hl
  | item hl hv h => exact .item hl hv h
  | value hl hm h => exact .value hl hm h
  | member hl hf hm h => exact .member hl hf hm h

/-- **A value that enters no record that was cut still belongs to the type.** -/
theorem Belongs.of_cut (hc : c.Cut c') (hv : Belongs c v t)
    (h : ∀ id, v.Enters c' t id → c.definition id = c'.definition id) : Belongs c' v t := by
  induction hv with
  | null => exact .null
  | bool => exact .bool
  | int hk => exact .int hk
  | real hk => exact .real hk
  | string hk => exact .string hk
  | fixed hb =>
    exact .fixed (by rwa [(hc.definition _).eq_of_not_record (by simp [hb])])
  | enum hb hs =>
    exact .enum (by rwa [(hc.definition _).eq_of_not_record (by simp [hb])]) hs
  | array _ ih => exact .array fun v hv => ih v hv fun id hid => h id (.item rfl hv hid)
  | map _ ih => exact .map fun m hm => ih m hm fun id hid => h id (.value rfl hm hid)
  | union _ ih => exact .union (ih fun id hid => h id hid.union)
  | record hb _ hdefault ih =>
    -- the value stands for the record, which is not cut then
    rw [h _ (.record rfl)] at hb
    refine .record hb (fun f hf v hm => ih f hf v hm fun id hid => h id ?_) hdefault
    exact .member rfl (by rwa [hb]) hm hid

end Json

end Avroc
