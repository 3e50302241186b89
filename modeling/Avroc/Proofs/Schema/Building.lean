import Avroc.Proofs.Schema.Attributes
import Avroc.Proofs.Schema.Growth
import Avroc.Proofs.Schema.Reading

/-!
# What reading builds

A reader changes the state in three ways only, whether it succeeds or not: it reports, it enters a
definition under a new full name, and it adds a field to a record that it has entered itself.  Each
of these asks for something: an enum that is entered has distinct symbols, a field that is added
has a name that is new to the record, a type that *stands* on the names known by then, and a default
of that type.  Where attributes are known to be legal, all of this keeps the rules for them.  A
record gets fields only while it is *open*: it leads to all that has been entered since, and nothing
that was there before leads to it.

* `leads_readSchema` : **reading a type builds, and the type stands.**
-/

namespace Avroc

open List

variable {α : Type} {d : Definition} {f : Field} {legal : Prop} {base : Nat} {t : Schema}
  {s s' s₀ : Scope} {name : String} {id : TypeId} {entries : List (String × TypeId)} {r : Registry}
  {Q : α → Scope → Prop}

/-! ### Types that stand -/

/-- The named types of the type are known in the state by their full names, and no union has a
union or two branches of one key among its branches. -/
inductive Schema.Stands (s : Scope) : Schema → Prop
  | primitive (kind : Primitive) (props : Members) : Stands s (.primitive kind props)
  | array {items : Schema} (props : Members) : Stands s items → Stands s (.array items props)
  | map {values : Schema} (props : Members) : Stands s values → Stands s (.map values props)
  | union {branches : List Schema} :
      (∀ t ∈ branches, Stands s t) → (∀ t ∈ branches, t.isUnion = false) →
      (branches.map (·.branchKey s.catalog)).Nodup → Stands s (.union branches)
  | named {id : TypeId} :
      id.index < s.catalog.size → s.registry.get? (s.catalog.fullName id) = some id →
      Stands s (.named id)

/-- The type of the field stands, and its name is legal where names are checked. -/
structure Field.Stands (s : Scope) (f : Field) : Prop where
  type : f.type.Stands s
  name : s.registry.checksNames = true → isLegalName f.name = true

/-- The field stands and its default belongs to its type, where defaults are checked.  It keeps the
rules if what is written is `legal`. -/
structure Field.Passes (legal : Prop) (s : Scope) (f : Field) : Prop extends f.Stands s where
  default : s.registry.checksDefaults = true → ∀ v ∈ f.default, v.fits s.catalog f.type = true
  ruled : legal → f.Ruled

/-- A type that stands is alike itself, by what holds of the types that are known. -/
theorem Schema.Stands.alike_self {ρ : Matching} (h : t.Stands s)
    (hρ : ∀ id, id.index < s.catalog.size → s.registry.get? (s.catalog.fullName id) = some id →
      ρ id id) : t.Alike ρ t := by
  induction h with
  | primitive kind props => exact ⟨props, rfl, rfl⟩
  | array props _ ih => exact ⟨_, props, rfl, ih, rfl⟩
  | map props _ ih => exact ⟨_, props, rfl, ih, rfl⟩
  | union _ _ _ ih => exact ⟨_, rfl, Schema.allAlike_iff.mpr (List.forall₂_same.mpr ih)⟩
  | named hid hget => exact ⟨_, rfl, hρ _ hid hget⟩

theorem Schema.Stands.within (h : t.Stands s) : t.Within s.catalog.size :=
  h.alike_self fun _ hid _ => ⟨rfl, hid⟩

/-- A type that stands goes on standing. -/
theorem Schema.Stands.mono (h : s.Grows s') (ht : t.Stands s) : t.Stands s' := by
  induction ht with
  | primitive kind props => exact .primitive kind props
  | array props _ ih => exact .array props ih
  | map props _ ih => exact .map props ih
  | @union branches hts hu hkeys ih =>
    refine .union ih hu ?_
    rwa [map_congr_left fun t ht => h.branchKey_eq (hts t ht).within]
  | @named id hid hget =>
    refine .named (Nat.lt_of_lt_of_le hid h.size) ?_
    rw [h.fullName id hid]
    exact h.get? _ _ hget

theorem Field.Stands.mono (h : s.Grows s') (hf : f.Stands s) : f.Stands s' :=
  ⟨hf.type.mono h, fun hc => hf.name (h.checksNames ▸ hc)⟩

/-! ### Registries with the right keys -/

/-- Every type of the registry is defined and stands under its full name, and no name stands
twice. -/
structure Registry.Keyed (c : Catalog) (r : Registry) : Prop where
  lt_size : ∀ e ∈ r.entries, e.2.index < c.size
  fullName : ∀ e ∈ r.entries, c.fullName e.2 = e.1
  nodup : r.names.Nodup

namespace Registry

theorem mem_of_get? (h : r.get? name = some id) : (name, id) ∈ r.entries := by
  obtain ⟨l₁, l₂, he, -⟩ := lookup_eq_some_iff.mp h
  rw [he]
  exact mem_append_right _ mem_cons_self

theorem get?_of_mem (h : r.names.Nodup) (hm : (name, id) ∈ r.entries) :
    r.get? name = some id := by
  obtain ⟨l₁, l₂, he⟩ := append_of_mem hm
  refine lookup_eq_some_iff.mpr ⟨l₁, l₂, he, fun p hp => ?_⟩
  rw [names, he, map_append, nodup_append] at h
  simpa using fun hk => h.2.2 p.1 (mem_map_of_mem hp) name (by simp) hk.symm

namespace Keyed

variable {c c' : Catalog}

theorem empty (checksNames checksDefaults : Bool) : Keyed c ⟨[], checksNames, checksDefaults⟩ :=
  ⟨forall_mem_nil _, forall_mem_nil _, nodup_nil⟩

theorem mono (h : r.Keyed c) (hsize : c.size ≤ c'.size)
    (hname : ∀ id, id.index < c.size → c'.fullName id = c.fullName id) : r.Keyed c' where
  lt_size e he := Nat.lt_of_lt_of_le (h.lt_size e he) hsize
  fullName e he := (hname e.2 (h.lt_size e he)).trans (h.fullName e he)
  nodup := h.nodup

theorem add (h : r.Keyed c) (hid : id.index < c.size) :
    (r.add (c.fullName id) id).Keyed c where
  lt_size e he := by
    rcases mem_putKey (entries_add r _ id ▸ he) with rfl | he
    · exact hid
    · exact h.lt_size e he
  fullName e he := by
    rcases mem_putKey (entries_add r _ id ▸ he) with rfl | he
    · rfl
    · exact h.fullName e he
  nodup := by
    rw [names, entries_add]
    exact nodup_putKey h.nodup

theorem addAll (h : r.Keyed c) {ids : List TypeId} (hids : ∀ id ∈ ids, id.index < c.size) :
    (r.addAll c ids).Keyed c := by
  induction ids generalizing r with
  | nil => exact h
  | cons id ids ih =>
    obtain ⟨hid, hids⟩ := forall_mem_cons.mp hids
    exact ih (h.add hid) hids

/-- A type of a registry is known by its full name. -/
theorem get?_fullName (h : r.Keyed c) (hid : id ∈ r.types) :
    id.index < c.size ∧ r.get? (c.fullName id) = some id := by
  obtain ⟨⟨name, _⟩, he, rfl⟩ := mem_map.mp hid
  refine ⟨h.lt_size _ he, ?_⟩
  rw [h.fullName _ he]
  exact get?_of_mem h.nodup he

theorem of_get? (h : r.Keyed c) (hn : r.get? name = some id) :
    id.index < c.size ∧ r.get? (c.fullName id) = some id :=
  h.get?_fullName (mem_map_of_mem (mem_of_get? hn))

end Keyed

end Registry

/-- A type that stands mentions types of the registry only. -/
theorem Schema.Stands.alike (h : t.Stands s) :
    t.Alike (fun a b => a = b ∧ a ∈ s.registry.types) t :=
  h.alike_self fun _ _ hget => ⟨rfl, mem_map_of_mem (Registry.mem_of_get? hget)⟩

/-- The registry is in order, its types mention only types that have been defined, and all
definitions below `base` have been made. -/
structure Scope.Orderly (base : Nat) (s : Scope) : Prop where
  base : base ≤ s.catalog.size
  keyed : s.registry.Keyed s.catalog
  within : ∀ id ∈ s.registry.types, ∀ f ∈ (s.catalog.definition id).body.fields,
    f.type.Within s.catalog.size

/-- The same with all definitions as the bound. -/
theorem Scope.Orderly.full (h : s.Orderly base) : s.Orderly s.catalog.size :=
  ⟨Nat.le_refl _, h.keyed, h.within⟩

/-- A registry without types is in order. -/
theorem Scope.orderly_of_empty (h : s.registry.entries = []) : s.Orderly 0 := by
  refine ⟨Nat.zero_le _, ⟨?_, ?_, ?_⟩, ?_⟩
  · simp [h]
  · simp [h]
  · simp [Registry.names, h]
  · simp [Registry.types, h]

/-- A registry with the right keys over a closed catalog is in order. -/
theorem Scope.orderly_of_closed (hk : s.registry.Keyed s.catalog) (hc : s.catalog.Closed) :
    s.Orderly s.catalog.size :=
  ⟨Nat.le_refl _, hk, fun id hid => hc id (hk.get?_fullName hid).1⟩

/-! ### Open records -/

/-- The type leads to all definitions from `base` on. -/
def Schema.Spans (base : Nat) (c : Catalog) (t : Schema) : Prop :=
  ∀ id : TypeId, base ≤ id.index → id.index < c.size → t.Reaches c (.named id)

theorem Schema.spans_size (c : Catalog) (t : Schema) : t.Spans c.size c :=
  fun _ hle hlt => absurd hlt (Nat.not_lt_of_le hle)

namespace Scope

/-- The record may get fields: it leads to all that has been defined since it was, and no type of
before leads to anything defined since. -/
structure Open (s : Scope) (id : TypeId) : Prop where
  lt_size : id.index < s.catalog.size
  record : ∃ isError fields, (s.catalog.definition id).body = .record isError fields
  below : ∀ other ∈ s.registry.types, other.index < id.index →
    ∀ f ∈ (s.catalog.definition other).body.fields, f.type.Within id.index
  spans : (Schema.named id).Spans id.index s.catalog

/-- The field may be added to the record: its default was checked when the record had some of its
fields, and the record leads to all that the type of the field has brought. -/
structure Admits (s : Scope) (id : TypeId) (f : Field) : Prop where
  stands : f.Stands s
  default : s.registry.checksDefaults = true → ∀ v ∈ f.default,
    ∃ c, c.CutAt id s.catalog ∧ v.fits c f.type = true
  remains : (s.extend id f).Open id

end Scope

/-! ### What reading does to a state -/

/-- What the rules for enums and records ask, where names are checked. -/
def Body.Lawful : Body → Prop
  | .record _ fields =>
    (fields.map (·.name)).Nodup ∧ ∀ f ∈ fields, isLegalName f.name = true
  | .enum symbols default =>
    symbols.Nodup ∧ (∀ t ∈ symbols, isLegalName t = true) ∧ ∀ t ∈ default, t ∈ symbols
  | .fixed _ => True

/-- A definition whose names are legal and whose body keeps the rules. -/
structure Definition.Lawful (d : Definition) : Prop where
  named : d.Named
  body : d.body.Lawful

theorem Definition.Lawful.addField (h : d.Lawful) (hf : isLegalName f.name = true)
    (hnew : ∀ g ∈ d.body.fields, g.name ≠ f.name) : (d.addField f).Lawful := by
  rcases d.addField_cases f with he | ⟨isError, fields, hb, he⟩ <;> rw [he]
  · exact h
  · have hbody := h.body
    rw [hb] at hbody hnew
    refine ⟨h.named, ?_, forall_mem_append.mpr ⟨hbody.2, forall_mem_singleton.mpr hf⟩⟩
    rw [map_append, nodup_append]
    refine ⟨hbody.1, by simp, fun a ha b hb => ?_⟩
    obtain ⟨g, hg, rfl⟩ := mem_map.mp ha
    obtain rfl := mem_singleton.mp hb
    exact hnew g hg

namespace Scope

theorem grows_report (s : Scope) (record : LogRecord) : s.Grows (s.report record) :=
  ⟨Nat.le_refl _, fun _ _ => rfl, fun _ _ h => h, rfl, rfl⟩

/-- The state has been reached by reports, by entering definitions under new full names, and by
adding fields to records from `base` on.  All of it keeps the rules for attributes if what is
written is `legal`. -/
inductive Builds (legal : Prop) (base : Nat) (s₀ : Scope) : Scope → Prop
  | refl : s₀.Orderly base → Builds legal base s₀ s₀
  | report {s : Scope} (record : LogRecord) :
      Builds legal base s₀ s → Builds legal base s₀ (s.report record)
  | enter {s : Scope} {d : Definition} :
      Builds legal base s₀ s → s.registry.contains d.fullName = false → d.body.fields = [] →
      (s.registry.checksNames = true → d.Lawful) → (legal → d.Ruled) →
      Builds legal base s₀ (s.enter d)
  | extend {s : Scope} {id : TypeId} {f : Field} :
      Builds legal base s₀ s → base ≤ id.index → s.Admits id f →
      (∀ g ∈ (s.catalog.definition id).body.fields, g.name ≠ f.name) → (legal → f.Ruled) →
      Builds legal base s₀ (s.extend id f)

namespace Builds

theorem trans (h : Builds legal base s₀ s) (h' : Builds legal base s s') :
    Builds legal base s₀ s' := by
  induction h' with
  | refl => exact h
  | report record _ ih => exact ih.report record
  | enter _ hn hb hd hr ih => exact ih.enter hn hb hd hr
  | extend _ hid hf hnew hr ih => exact ih.extend hid hf hnew hr

instance : Trans (Builds legal base) (Builds legal base) (Builds legal base) := ⟨trans⟩

theorem weaken {base' : Nat} (h : Builds legal base' s₀ s) (hs : s₀.Orderly base)
    (hle : base ≤ base') : Builds legal base s₀ s := by
  induction h with
  | refl => exact .refl hs
  | report record _ ih => exact ih.report record
  | enter _ hn hb hd hr ih => exact ih.enter hn hb hd hr
  | extend _ hid hf hnew hr ih => exact ih.extend (Nat.le_trans hle hid) hf hnew hr

theorem grows (h : Builds legal base s₀ s) : s₀.Grows s := by
  induction h with
  | refl => exact .refl s₀
  | report record _ ih => exact ih.trans (grows_report _ record)
  | enter _ hn _ _ _ ih => exact ih.trans (grows_enter hn)
  | extend _ _ _ _ _ ih => exact ih.trans (grows_extend _ _ _)

/-- No definition loses a field. -/
theorem fields (h : Builds legal base s₀ s) (id : TypeId) :
    (s₀.catalog.definition id).body.fields ⊆ (s.catalog.definition id).body.fields := by
  induction h with
  | refl => exact List.Subset.refl _
  | report record _ ih => exact ih
  | enter _ _ _ _ _ ih => exact List.Subset.trans ih (fields_enter _ _ _)
  | extend _ _ _ _ _ ih => exact List.Subset.trans ih (fields_extend _ _ _ _)

end Builds

/-- A type of the registry after a definition has been entered is one of before, or the new one. -/
theorem mem_types_enter (h : s.Orderly base) (hn : s.registry.contains d.fullName = false)
    (hid : id ∈ (s.enter d).registry.types) :
    id ∈ s.registry.types ∧ (s.enter d).catalog.definition id = s.catalog.definition id ∨
      id = ⟨s.catalog.size⟩ ∧ (s.enter d).catalog.definition id = d := by
  rw [Registry.types, Scope.enter, Registry.entries_add_of_new hn, map_append,
    mem_append] at hid
  rcases hid with hid | hid
  · exact .inl ⟨hid, definition_enter_of_lt (h.keyed.get?_fullName hid).1 d⟩
  · obtain rfl := mem_singleton.mp hid
    exact .inr ⟨rfl, definition_enter_self s d⟩

theorem Orderly.enter (h : s.Orderly base) (hn : s.registry.contains d.fullName = false)
    (hb : d.body.fields = []) :
    (s.enter d).Orderly base where
  base := Nat.le_trans h.base (grows_enter hn).size
  keyed := by
    have hkept := h.keyed.mono (grows_enter hn).size (grows_enter hn).fullName
    have hlt : (⟨s.catalog.size⟩ : TypeId).index < (s.enter d).catalog.size := by simp
    have hadded := hkept.add hlt
    rwa [show (s.enter d).catalog.fullName ⟨s.catalog.size⟩ = d.fullName by simp] at hadded
  within id hid f hf := by
    rcases mem_types_enter h hn hid with ⟨hid, hd⟩ | ⟨-, hd⟩ <;> rw [hd] at hf
    · exact (h.within id hid f hf).mono (grows_enter hn).size
    · rw [hb] at hf
      cases hf

theorem Orderly.extend (h : s.Orderly base) (id : TypeId) (hf : f.type.Within s.catalog.size) :
    (s.extend id f).Orderly base where
  base := Nat.le_trans h.base (grows_extend s id f).size
  keyed := h.keyed.mono (grows_extend s id f).size (grows_extend s id f).fullName
  within other ho := by
    rw [size_extend]
    exact forall_fields_extend (h.within other ho) hf

theorem Builds.orderly (h : Builds legal base s₀ s) : s.Orderly base := by
  induction h with
  | refl h => exact h
  | report record _ ih => exact ⟨ih.base, ih.keyed, ih.within⟩
  | enter _ hn hb _ _ ih => exact ih.enter hn hb
  | extend _ _ hf _ _ ih => exact ih.extend _ hf.stands.type.within

/-- The types of the registry that are not new have been there before. -/
theorem Builds.mem_types (h : Builds legal base s₀ s) (hid : id ∈ s.registry.types)
    (hlt : id.index < s₀.catalog.size) : id ∈ s₀.registry.types := by
  induction h with
  | refl => exact hid
  | report record _ ih => exact ih hid
  | enter h hn _ _ _ ih =>
    rcases mem_types_enter h.orderly hn hid with ⟨hid, -⟩ | ⟨rfl, -⟩
    · exact ih hid
    · exact absurd hlt (Nat.not_lt_of_le h.grows.size)
  | extend _ _ _ _ _ ih => exact ih hid

/-! ### What is new -/

namespace Builds

variable (h : Builds legal base s₀ s) (hb : s₀.catalog.size ≤ base)
include h hb

/-- Reading that adds no field to an old record only adds definitions of its own. -/
theorem adds : ∃ log, s₀.Adds (fun _ => True) { s with log } := by
  induction h with
  | refl => exact ⟨s₀.log, .refl⟩
  | report record _ ih => exact ih
  | enter _ hn hfields hd _ ih =>
    obtain ⟨log, ih⟩ := ih
    exact ⟨_, ih.enter hn trivial hfields fun hc => (hd hc).named⟩
  | extend _ hid hf _ _ ih =>
    obtain ⟨log, ih⟩ := ih
    exact ⟨log, ih.extend (Nat.le_trans hb hid) hf.stands.type.within⟩

theorem kept : s₀.KeptIn s := by
  obtain ⟨log, hadds⟩ := h.adds hb
  have hk := hadds.kept
  exact ⟨hk.size, hk.definition, hk.entries, hk.checksNames, hk.checksDefaults⟩

theorem closed (hs : s₀.registry.Keyed s₀.catalog) (hc : s₀.catalog.Closed) : s.catalog.Closed := by
  obtain ⟨log, hadds⟩ := h.adds hb
  exact (hadds.solid ⟨fun _ _ hn => (hs.of_get? hn).1, hc⟩).closed

theorem addAll_newTypes :
    s₀.registry.addAll s.catalog (s.registry.newTypes s₀.registry.names) = s.registry := by
  obtain ⟨log, hadds⟩ := h.adds hb
  exact hadds.addAll_newTypes

theorem types_eq :
    s.registry.types = s₀.registry.types ++ s.registry.newTypes s₀.registry.names := by
  obtain ⟨log, hadds⟩ := h.adds hb
  obtain ⟨new, hentries, hnew, -⟩ := hadds.exists_newTypes
  rw [Registry.types, show s.registry.entries = _ from hentries, map_append]
  exact congrArg _ hnew.symm

end Builds

/-! ### Records while they are read -/

/-- A record that has just been entered is open. -/
theorem Orderly.open_enter (h : s.Orderly base) (hn : s.registry.contains d.fullName = false)
    {isError : Bool} (hb : d.body = .record isError []) : (s.enter d).Open ⟨s.catalog.size⟩ where
  lt_size := by simp
  record := ⟨isError, [], by rw [definition_enter_self, hb]⟩
  below other ho hlt f hf := by
    rcases mem_types_enter h hn ho with ⟨ho, hd⟩ | ⟨rfl, -⟩
    · rw [hd] at hf
      exact h.within other ho f hf
    · exact absurd hlt (Nat.lt_irrefl _)
  spans other hle hlt := by
    rcases lt_size_enter hlt with hlt | rfl
    · exact absurd hlt (Nat.not_lt_of_le hle)
    · exact .refl _

/-- A record stays open while the type of a field is read, if it then gets that field. -/
theorem Open.extend (ho : s.Open id) (h : Builds legal s.catalog.size s s')
    (hf : f.type.Spans s.catalog.size s'.catalog) : (s'.extend id f).Open id := by
  have hkept := h.kept (Nat.le_refl _)
  have hlt : id.index < s'.catalog.size := Nat.lt_of_lt_of_le ho.lt_size hkept.size
  obtain ⟨isError, fields, hbody⟩ := ho.record
  rw [← hkept.definition id ho.lt_size] at hbody
  have hself : ((s'.extend id f).catalog.definition id).body = .record isError (fields ++ [f]) := by
    rw [definition_extend_self hlt, Definition.addField_fields hbody]
  refine ⟨by simpa using hlt, ⟨isError, _, hself⟩, fun other hmem hother g hg => ?_,
    fun other hle hother => ?_⟩
  · have hold : other.index < s.catalog.size := Nat.lt_trans hother ho.lt_size
    have hne : other ≠ id := by
      rintro rfl
      exact Nat.lt_irrefl _ hother
    rw [definition_extend_of_ne hne, hkept.definition other hold] at hg
    exact ho.below other (h.mem_types hmem hold) hother g hg
  · by_cases hold : other.index < s.catalog.size
    · refine Schema.Reaches.mono (fun i => ?_) (ho.spans other hle hold)
      exact List.Subset.trans (h.fields i) (fields_extend s' id f i)
    · -- the type is one that the field has brought
      refine .field (f := f) (by rw [hself]; simp [Body.fields]) ?_
      refine Schema.Reaches.mono (fields_extend s' id f) (hf other (Nat.le_of_not_lt hold) ?_)
      simpa using hother

/-! ### The rules that types keep -/

/-- The fields of the types of the registry stand. -/
def Upright (s : Scope) : Prop :=
  ∀ id ∈ s.registry.types, ∀ f ∈ (s.catalog.definition id).body.fields, f.type.Stands s

/-- **Reading adds only fields that stand.** -/
theorem Builds.upright (h : Builds legal base s₀ s) (hs : s₀.Upright) : s.Upright := by
  induction h with
  | refl => exact hs
  | report record _ ih => exact fun id hid f hf => (ih id hid f hf).mono (grows_report _ _)
  | @enter s d h hn hb _ _ ih =>
    intro id hid f hf
    rcases mem_types_enter h.orderly hn hid with ⟨hid, hd⟩ | ⟨-, hd⟩ <;> rw [hd] at hf
    · exact (ih id hid f hf).mono (grows_enter hn)
    · rw [hb] at hf
      cases hf
  | @extend s id f h _ hf _ _ ih =>
    exact fun other ho g hg => Schema.Stands.mono (grows_extend s id f)
      (forall_fields_extend (Q := (·.type.Stands s)) (ih other ho) hf.stands.type g hg)

/-- The types of the registry keep the rules, and the types of their fields stand. -/
def Lawful (s : Scope) : Prop :=
  ∀ id ∈ s.registry.types, (s.catalog.definition id).Lawful ∧
    ∀ f ∈ (s.catalog.definition id).body.fields, f.type.Stands s

/-- **Reading keeps the rules**, where names are checked. -/
theorem Builds.lawful (h : Builds legal base s₀ s) (hc : s₀.registry.checksNames = true)
    (hs : s₀.Lawful) : s.Lawful := by
  suffices hlaw : ∀ id ∈ s.registry.types, (s.catalog.definition id).Lawful from
    fun id hid => ⟨hlaw id hid, h.upright (fun id hid => (hs id hid).2) id hid⟩
  induction h with
  | refl => exact fun id hid => (hs id hid).1
  | report record _ ih => exact ih
  | @enter s d h hn hb hd _ ih =>
    intro id hid
    rcases mem_types_enter h.orderly hn hid with ⟨hid, heq⟩ | ⟨-, heq⟩ <;> rw [heq]
    · exact ih id hid
    · exact hd (h.grows.checksNames.trans hc)
  | @extend s id f h _ hf hnew _ ih =>
    intro other ho
    rcases definition_extend s id f other with heq | ⟨rfl, heq⟩ <;> rw [heq]
    · exact ih other ho
    · exact (ih other ho).addField (hf.stands.name (h.grows.checksNames.trans hc)) hnew

/-- The definitions from `first` on keep the rules for attributes. -/
def RuledFrom (first : Nat) (s : Scope) : Prop :=
  ∀ id : TypeId, first ≤ id.index → id.index < s.catalog.size → (s.catalog.definition id).Ruled

/-- **Reading keeps the rules for attributes**, if what is written is legal. -/
theorem Builds.ruled (h : Builds legal base s₀ s) (hl : legal) {first : Nat}
    (hs : s₀.RuledFrom first) : s.RuledFrom first := by
  induction h with
  | refl => exact hs
  | report record _ ih => exact ih
  | enter _ _ _ _ hr ih =>
    intro id hfirst hid
    rcases lt_size_enter hid with hlt | rfl
    · rw [definition_enter_of_lt hlt]
      exact ih id hfirst hlt
    · rw [definition_enter_self]
      exact hr hl
  | @extend s id f _ _ _ _ hr ih =>
    intro other hfirst hother
    rw [size_extend] at hother
    exact extend_induction (ih other hfirst hother) fun _ hd => hd.addField (hr hl)

end Scope

/-! ### Steps of reading -/

theorem leads_refuse (fault : Fault) (h : s.Orderly base) :
    Leads (Scope.Builds legal base) s Q (outcome (refuse fault : Reading α) s) :=
  leads_throw (.refl h) _

/-- A type that has just been entered stands. -/
theorem Scope.stands_enter (s : Scope) (d : Definition) :
    (Schema.named ⟨s.catalog.size⟩).Stands (s.enter d) := by
  refine .named (by simp) ?_
  rw [Scope.fullName_enter_self, Scope.enter, Registry.get?_add, if_pos rfl]

theorem leads_define (h : s.Orderly base) (hb : d.body.fields = [])
    (hd : s.registry.checksNames = true → d.Lawful) (hr : legal → d.Ruled) :
    Leads (Scope.Builds legal base) s (fun id s' => s.registry.contains d.fullName = false ∧
      id = ⟨s.catalog.size⟩ ∧ s' = s.enter d) (outcome (define d) s) := by
  rw [outcome_define]
  cases hn : s.registry.contains d.fullName with
  | true => exact ⟨.refl h, fun _ hid => nomatch hid⟩
  | false =>
    refine ⟨(Scope.Builds.refl h).enter hn hb hd hr, fun _ hid => ⟨rfl, ?_, rfl⟩⟩
    exact (Except.ok.inj hid).symm

theorem leads_addField (h : s.Orderly base) (hid : base ≤ id.index) (hf : s.Admits id f)
    (hr : legal → f.Ruled) :
    Leads (Scope.Builds legal base) s (fun _ s' => s' = s.extend id f)
      (outcome (addField id f) s) := by
  rw [outcome_addField]
  split
  · exact ⟨.refl h, fun _ hu => nomatch hu⟩
  · rename_i hnew
    exact ⟨(Scope.Builds.refl h).extend hid hf (by simpa using hnew) hr, fun _ _ => rfl⟩

/-- Fields are added to an open record that have been checked before any of them was. -/
theorem leads_addFields (h : s.Orderly base) (hid : base ≤ id.index) (ho : s.Open id)
    {fs : List Field} (hfs : ∀ f ∈ fs, f.Passes legal s) :
    Leads (Scope.Builds legal base) s (fun _ s' => s'.Open id) (outcome (addFields id fs) s) := by
  suffices hadd : ∀ s', s'.Orderly base → s'.Open id → s.Grows s' → s.catalog.CutAt id s'.catalog →
      Leads (Scope.Builds legal base) s' (fun _ s' => s'.Open id)
        (outcome (addFields id fs) s') from
    hadd s h ho (.refl s) (.refl id _)
  induction fs with
  | nil => exact fun s' h' ho' _ _ => leads_pure (.refl h') ho'
  | cons f fs ih =>
    obtain ⟨hf, hfs⟩ := forall_mem_cons.mp hfs
    intro s' h' ho' hgrows hcut
    have hadmits : s'.Admits id f := by
      refine ⟨hf.toStands.mono hgrows, fun hc v hv => ⟨_, hcut, ?_⟩,
        ho'.extend (.refl h'.full : Scope.Builds legal _ _ _) (Schema.spans_size _ _)⟩
      exact hf.default (hgrows.checksDefaults ▸ hc) v hv
    refine (leads_addField h' hid hadmits hf.ruled).bind fun _ s₁ h₁ hs₁ => ?_
    subst hs₁
    exact ih hfs _ h₁.orderly hadmits.remains (hgrows.trans h₁.grows) (Scope.cutAt_extend hcut f)

/-! ### Checks -/

theorem still_refuse (fault : Fault) : Still (refuse fault : Reading α) :=
  still_throw _

theorem still_documentNow (t : Schema) : Still (documentNow t) := by
  refine still_get.bind fun s => ?_
  cases t.document s.catalog with
  | ok j => exact still_pure j
  | error cause => exact still_throw _

theorem still_checkErrorType (t : Schema) : Still (checkErrorType t) := by
  unfold checkErrorType
  split
  · refine still_get.bind fun s => ?_
    split
    · exact still_pure _
    · exact (still_documentNow _).bind fun _ => still_refuse _
  · exact (still_documentNow _).bind fun _ => still_refuse _

theorem passes_of_makeField {g : Field} (h : Yields (makeField f) s g s') (hf : f.Stands s)
    (hr : legal → f.Ruled) : g.type = f.type ∧ g.Passes legal s := by
  obtain ⟨rfl, hdefault⟩ := yields_makeField.mp h
  exact ⟨rfl, hf, fun hc v hv => (yields_checkDefault.mp hdefault).2 v hv hc, hr⟩

theorem stands_of_makeUnion {ts : List Schema} (hts : ∀ t ∈ ts, t.Stands s)
    (h : Yields (makeUnion ts) s t s') : t = .union ts ∧ t.Stands s := by
  obtain ⟨rfl, hb⟩ := yields_makeUnion.mp h
  obtain ⟨rfl, hu, hkeys, -⟩ := yields_checkBranches.mp hb
  exact ⟨rfl, .union hts hu hkeys⟩

theorem stands_of_checkErrorType (ht : t.Stands s) (h : Yields (checkErrorType t) s id s') :
    (Schema.named id).Stands s := by
  obtain ⟨-, rfl, -⟩ := yields_checkErrorType.mp h
  exact ht

/-- A type that a name leads to stands. -/
theorem Scope.Orderly.stands_of_resolve (h : s.Orderly base) {space : Option String}
    (hid : s.registry.resolve name space = some id) : (Schema.named id).Stands s := by
  obtain ⟨full, hfull, -⟩ := Registry.get?_of_resolve hid
  obtain ⟨hlt, hget⟩ := h.keyed.of_get? hfull
  exact .named hlt hget

/-! ### Readers -/

/-- The type that has been read stands, and leads to all that is new. -/
structure Schema.Arises (s s' : Scope) (t : Schema) : Prop where
  stands : t.Stands s'
  spans : t.Spans s.catalog.size s'.catalog

/-- What a type is made of leads to all that is new, and so does the type. -/
theorem Schema.Arises.around {u : Schema} (h : t.Arises s s') (hu : u.Stands s')
    (hreach : ∀ id, t.Reaches s'.catalog (.named id) →
      u.Reaches s'.catalog (.named id)) : u.Arises s s' :=
  ⟨hu, fun id hle hlt => hreach id (h.spans id hle hlt)⟩

theorem Schema.Stands.arises (h : t.Stands s) : t.Arises s s :=
  ⟨h, t.spans_size _⟩

theorem Body.Declarable.lawful {b : Body} (h : b.Declarable) : b.Lawful := by
  cases b with
  | record isError fields =>
    obtain rfl : fields = [] := h
    exact ⟨nodup_nil, forall_mem_nil _⟩
  | enum => exact h
  | fixed => trivial

/-- A definition that is read keeps the rules, if its body does. -/
theorem Defines.builds {around : Space} {ms : Members} (h : s.Orderly base)
    (hd : Defines ms around s d) (hb : s.registry.checksNames = true → d.body.Declarable)
    (hfields : d.body.fields = []) (hsize : d.body.sizeFits = true) :
    Scope.Builds legal base s (s.enter d) :=
  (Scope.Builds.refl h).enter hd.new hfields
    (fun hc => ⟨named_of_readName hd.name hc, (hb hc).lawful⟩)
    fun _ => .of_aliases hd.aliases hfields hsize

/-- What reading a document builds. -/
def building (legal : Prop) : Account where
  value _ := True
  rel s s' := Scope.Builds legal s.catalog.size s s'
  error _ := True
  type _ _ s t s' := t.Arises s s'
  branches _ _ s ts s' :=
    (∀ t ∈ ts, t.Stands s') ∧ (Schema.union ts).Spans s.catalog.size s'.catalog
  field _ _ s f s' := f.Passes legal s' ∧ f.type.Arises s s'
  record _ _ s s₁ := (Schema.named ⟨s.catalog.size⟩).Stands s₁ ∧ s₁.Open ⟨s.catalog.size⟩
  item _ _ _ := trivial
  member _ _ _ := trivial
  next h := .refl h.orderly.full
  trans h h' := h.trans (h'.weaken h.orderly h.grows.size)
  refused _ _ _ := trivial
  order _ _ _ := trivial
  document _ _ := trivial
  primitive _ := (Schema.Stands.primitive _ _).arises
  reference h _ hid := (h.orderly.stands_of_resolve hid).arises
  attributed _ _ _ := (Schema.Stands.primitive _ _).arises
  inner _ _ h := h
  array _ _ h := h.around (.array _ h.stands) fun _ => .items
  map _ _ h := h.around (.map _ h.stands) fun _ => .values
  noBranch := ⟨forall_mem_nil _, Schema.spans_size _ _⟩
  branch {_ _ _ _ _ s₁ _ _} ht h hts := by
    refine ⟨forall_mem_cons.mpr ⟨ht.stands.mono h.grows, hts.1⟩, fun id hle hlt => ?_⟩
    by_cases hid : id.index < s₁.catalog.size
    · exact .branch mem_cons_self ((ht.spans id hle hid).mono h.fields)
    · cases hts.2 id (Nat.le_of_not_lt hid) hlt with
      | branch hb hreach => exact .branch (mem_cons_of_mem _ hb) hreach
  union h hu := by
    obtain ⟨rfl, hstands⟩ := stands_of_makeUnion h.1 hu
    exact ⟨hstands, h.2⟩
  leaf _ _ h hleaf := by
    obtain ⟨d, hd, hb, hfields, hsize, rfl, rfl⟩ := hleaf
    refine ⟨hd.builds h.orderly hb (Body.fields_eq_nil hfields) ?_, Scope.stands_enter _ d,
      fun other hle hlt => ?_⟩
    · cases hbody : d.body with
      | record => exact absurd hbody (hfields _ _)
      | enum => rfl
      | fixed size => exact decide_eq_true (hsize size hbody)
    · rcases Scope.lt_size_enter hlt with hlt | rfl
      · exact absurd hlt (Nat.not_lt_of_le hle)
      · exact .refl _
  enter h hd hb := by
    refine ⟨hd.builds h.orderly (fun _ => ?_) ?_ ?_, Scope.stands_enter _ _,
      h.orderly.open_enter hd.new hb⟩ <;> rw [hb] <;> rfl
  extend {_ _ _ s s₁ f s'} h hd h' hf hnew := by
    -- the type of the field has entered and extended new types only, so that the record is open
    have hadmits : s'.Admits ⟨s.catalog.size⟩ f :=
      ⟨hf.1.toStands, fun hc v hv => ⟨_, .refl _ _, hf.1.default hc v hv⟩,
        hd.2.extend h' hf.2.spans⟩
    refine ⟨.extend (h.trans (h'.weaken h.orderly h.grows.size)) (Nat.le_refl _) hadmits hnew
      hf.1.ruled, ?_, hadmits.remains⟩
    exact hd.1.mono (h'.grows.trans (Scope.grows_extend s' _ f))
  complete _ _ _ _ _ _ hd := ⟨hd.1, hd.2.spans⟩
  declare _ ht h hf := by
    obtain ⟨aliases, he, hall⟩ := hf.aliases
    exact ⟨⟨⟨ht.stands, fun hc => hf.name (h.grows.checksNames ▸ hc)⟩, hf.default,
      fun _ => ⟨hf.order, he ▸ hall⟩⟩, ht⟩

/-- Reading changes only what is new, seen from an earlier bound. -/
theorem Scope.Orderly.leads (h : s.Orderly base) {r : Except Error α × Scope}
    (hr : (building legal).Runs s Q r) : Leads (Scope.Builds legal base) s Q r :=
  ⟨hr.rel.weaken h h.base, hr.result⟩

/-- **Reading a type builds, and the type stands.** -/
theorem leads_readSchema (h : s.Orderly base) (v : Json) (space : Space) :
    Leads (Scope.Builds legal base) s (fun t s' => t.Stands s') (outcome (readSchema v space) s) :=
  (h.leads (((building legal).reads trivial).type (.refl h.full))).imp fun _ _ _ ht => ht.stands

theorem leads_readField (h : s.Orderly base) (v : Json) (space : Space) :
    Leads (Scope.Builds legal base) s (fun f s' => f.Passes legal s')
      (outcome (readField v space) s) :=
  (h.leads (((building legal).reads trivial).field (.refl h.full))).imp fun _ _ _ hf => hf.1

theorem leads_readSchemaText (h : s.Orderly base) (text : String) :
    Leads (Scope.Builds legal base) s (fun t s' => t.Stands s') (outcome (readSchemaText text) s) :=
  (still_liftM _).leads_bind (.refl h) fun v _ => leads_readSchema h v .root

end Avroc
