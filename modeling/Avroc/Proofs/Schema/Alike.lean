import Avroc.Module.Source
import Avroc.Proofs.Schema.Fitting
import Avroc.Schema.Reachable
import Mathlib.Data.List.Forall2

/-!
# Alike types

Two catalogs may hold the same definitions at different places, and with attributes that differ
only in what no document shows.  Along a relation `ρ` between the identities of one catalog and
those of another, types, fields and definitions are *alike* when they show the same.

* `Json.fits_alike` : a value belongs to either of two alike types or to none.
-/

namespace Avroc

open List

variable {d e : Body} {ρ σ : Matching} {t u : Schema} {c c' : Catalog}

/-- A relation between the identities of two catalogs. -/
abbrev Matching := TypeId → TypeId → Prop

theorem exists_mem_of_forall₂ {α β : Type} {R : α → β → Prop} {l : List α} {l' : List β}
    (h : List.Forall₂ R l l') {a : α} (ha : a ∈ l) : ∃ b ∈ l', R a b := by
  induction h with
  | nil => cases ha
  | cons hb _ ih =>
    rcases mem_cons.mp ha with rfl | ha
    · exact ⟨_, mem_cons_self, hb⟩
    · obtain ⟨b, hm, hab⟩ := ih ha
      exact ⟨b, mem_cons_of_mem _ hm, hab⟩

/-! ### Types -/

namespace Schema

/-- Induction over types, with the hypothesis for every branch of a union. -/
@[elab_as_elim]
theorem nestedInduction {P : Schema → Prop} (primitive : ∀ kind props, P (.primitive kind props))
    (array : ∀ items props, P items → P (.array items props))
    (map : ∀ values props, P values → P (.map values props))
    (union : ∀ branches, (∀ b ∈ branches, P b) → P (.union branches))
    (named : ∀ id, P (.named id)) (t : Schema) : P t := by
  refine Schema.rec (motive_1 := P) (motive_2 := fun branches => ∀ b ∈ branches, P b)
    primitive array map union named ?_ ?_ t
  · exact fun _ h => absurd h not_mem_nil
  · exact fun b branches hb hbranches => forall_mem_cons.mpr ⟨hb, hbranches⟩

mutual

/-- The two types have the same shape and attributes, and mention matching named types. -/
def Alike (ρ : Matching) : Schema → Schema → Prop
  | .primitive kind props, u => ∃ props', u = .primitive kind props' ∧ props.tidy = props'.tidy
  | .array items props, u =>
    ∃ items' props', u = .array items' props' ∧ Alike ρ items items' ∧ props.tidy = props'.tidy
  | .map values props, u =>
    ∃ values' props', u = .map values' props' ∧ Alike ρ values values' ∧ props.tidy = props'.tidy
  | .union branches, u => ∃ branches', u = .union branches' ∧ AllAlike ρ branches branches'
  | .named id, u => ∃ id', u = .named id' ∧ ρ id id'
termination_by structural t => t

/-- The branches of two unions are alike, one by one. -/
def AllAlike (ρ : Matching) : List Schema → List Schema → Prop
  | [], us => us = []
  | t :: ts, us => ∃ u us', us = u :: us' ∧ Alike ρ t u ∧ AllAlike ρ ts us'
termination_by structural ts => ts

end

theorem allAlike_iff {ts us : List Schema} : AllAlike ρ ts us ↔ List.Forall₂ (Alike ρ) ts us := by
  induction ts generalizing us with
  | nil => simp [AllAlike]
  | cons t ts ih =>
    constructor
    · rintro ⟨u, us', rfl, hu, hus⟩
      exact .cons hu (ih.mp hus)
    · rintro (_ | ⟨hu, hus⟩)
      exact ⟨_, _, rfl, hu, ih.mpr hus⟩

/-- Induction along two alike types, with the hypothesis for every two branches of unions. -/
@[elab_as_elim]
theorem Alike.induction {P : Schema → Schema → Prop}
    (primitive : ∀ {props props'} kind, props.tidy = props'.tidy →
      P (.primitive kind props) (.primitive kind props'))
    (array : ∀ {items items' props props'}, items.Alike ρ items' → P items items' →
      props.tidy = props'.tidy → P (.array items props) (.array items' props'))
    (map : ∀ {values values' props props'}, values.Alike ρ values' → P values values' →
      props.tidy = props'.tidy → P (.map values props) (.map values' props'))
    (union : ∀ {ts us}, List.Forall₂ (Alike ρ) ts us → List.Forall₂ P ts us →
      P (.union ts) (.union us))
    (named : ∀ {a b}, ρ a b → P (.named a) (.named b)) (h : t.Alike ρ u) : P t u := by
  induction t using nestedInduction generalizing u with
  | primitive kind props =>
    obtain ⟨props', rfl, hp⟩ := h
    exact primitive kind hp
  | array items props ih =>
    obtain ⟨items', props', rfl, hi, hp⟩ := h
    exact array hi (ih hi) hp
  | map values props ih =>
    obtain ⟨values', props', rfl, hv, hp⟩ := h
    exact map hv (ih hv) hp
  | union branches ih =>
    obtain ⟨branches', rfl, hb⟩ := h
    rw [allAlike_iff] at hb
    refine union hb ?_
    induction hb with
    | nil => exact .nil
    | cons hu _ ihs =>
      exact .cons (ih _ mem_cons_self hu) (ihs fun t ht => ih t (mem_cons_of_mem _ ht))
  | named id =>
    obtain ⟨id', rfl, hid⟩ := h
    exact named hid

theorem Alike.mono (h : ∀ a b, ρ a b → σ a b) (ht : t.Alike ρ u) : t.Alike σ u := by
  refine Alike.induction ?primitive ?array ?map ?union ?named ht
  case primitive => exact fun kind hp => ⟨_, rfl, hp⟩
  case array => exact fun _ ih hp => ⟨_, _, rfl, ih, hp⟩
  case map => exact fun _ ih hp => ⟨_, _, rfl, ih, hp⟩
  case union => exact fun _ ih => ⟨_, rfl, allAlike_iff.mpr ih⟩
  case named => exact fun hab => ⟨_, rfl, h _ _ hab⟩

theorem Alike.symm (h : t.Alike ρ u) : u.Alike (fun b a => ρ a b) t := by
  refine Alike.induction ?primitive ?array ?map ?union ?named h
  case primitive => exact fun _ hp => ⟨_, rfl, hp.symm⟩
  case array => exact fun _ ih hp => ⟨_, _, rfl, ih, hp.symm⟩
  case map => exact fun _ ih hp => ⟨_, _, rfl, ih, hp.symm⟩
  case union => exact fun _ ih => ⟨_, rfl, allAlike_iff.mpr ih.flip⟩
  case named => exact fun hab => ⟨_, rfl, hab⟩

theorem Alike.isNull_eq (h : t.Alike ρ u) : t.isNull = u.isNull := by
  refine Alike.induction (fun kind _ => ?_) (fun _ _ _ => rfl) (fun _ _ _ => rfl) (fun _ _ => rfl)
    (fun _ => rfl) h
  cases kind <;> rfl

theorem Alike.isUnion_eq (h : t.Alike ρ u) : t.isUnion = u.isUnion :=
  Alike.induction (fun _ _ => rfl) (fun _ _ _ => rfl) (fun _ _ _ => rfl) (fun _ _ => rfl)
    (fun _ => rfl) h

end Schema

/-! ### Fields, definitions and catalogs -/

/-- The two fields show the same. -/
structure Field.Alike (ρ : Matching) (f g : Field) : Prop where
  name : f.name = g.name
  type : f.type.Alike ρ g.type
  doc : givenText f.doc = givenText g.doc
  default : f.default = g.default
  order : Field.orderMember f.order = Field.orderMember g.order
  aliases : f.aliases = g.aliases
  props : f.props.tidy = g.props.tidy

/-- The two named types consist of the same. -/
def Body.Alike (ρ : Matching) : Body → Body → Prop
  | .record isError fields, body =>
    ∃ fields', body = .record isError fields' ∧ List.Forall₂ (Field.Alike ρ) fields fields'
  | body, body' => body' = body

/-- The two named types show the same. -/
structure Definition.Alike (ρ : Matching) (d e : Definition) : Prop where
  name : d.name = e.name
  space : d.space = e.space
  doc : givenText d.doc = givenText e.doc
  aliases : d.aliases = e.aliases
  props : d.props.tidy = e.props.tidy
  body : d.body.Alike ρ e.body

/-- Matching identities have alike definitions. -/
def Catalog.Alike (ρ : Matching) (c c' : Catalog) : Prop :=
  ∀ a b, ρ a b → (c.definition a).Alike ρ (c'.definition b)

theorem Field.Alike.mono (h : ∀ a b, ρ a b → σ a b) {f g : Field} (hf : f.Alike ρ g) :
    f.Alike σ g :=
  { hf with type := hf.type.mono h }

theorem Field.Alike.symm {f g : Field} (h : f.Alike ρ g) : g.Alike (fun b a => ρ a b) f :=
  ⟨h.name.symm, h.type.symm, h.doc.symm, h.default.symm, h.order.symm, h.aliases.symm,
    h.props.symm⟩

/-- Alike bodies are those of two records, or the same. -/
@[elab_as_elim]
theorem Body.Alike.cases {P : Body → Body → Prop}
    (record : ∀ {isError fields fields'}, List.Forall₂ (Field.Alike ρ) fields fields' →
      P (.record isError fields) (.record isError fields'))
    (enum : ∀ symbols default, P (.enum symbols default) (.enum symbols default))
    (fixed : ∀ size, P (.fixed size) (.fixed size)) (h : d.Alike ρ e) : P d e := by
  cases d with
  | record isError fields =>
    obtain ⟨fields', rfl, hf⟩ := h
    exact record hf
  | enum symbols default =>
    obtain rfl : e = .enum symbols default := h
    exact enum symbols default
  | fixed size =>
    obtain rfl : e = .fixed size := h
    exact fixed size

theorem Body.Alike.mono (h : ∀ a b, ρ a b → σ a b) (hd : d.Alike ρ e) : d.Alike σ e :=
  Body.Alike.cases (fun hf => ⟨_, rfl, hf.imp fun _ _ hfg => hfg.mono h⟩) (fun _ _ => rfl)
    (fun _ => rfl) hd

theorem Body.Alike.symm (h : d.Alike ρ e) : e.Alike (fun b a => ρ a b) d :=
  Body.Alike.cases (fun hf => ⟨_, rfl, (hf.imp fun _ _ hfg => hfg.symm).flip⟩) (fun _ _ => rfl)
    (fun _ => rfl) h

theorem Definition.Alike.mono (h : ∀ a b, ρ a b → σ a b) {d e : Definition} (hd : d.Alike ρ e) :
    d.Alike σ e :=
  { hd with body := hd.body.mono h }

theorem Definition.Alike.symm {d e : Definition} (h : d.Alike ρ e) : e.Alike (fun b a => ρ a b) d :=
  ⟨h.name.symm, h.space.symm, h.doc.symm, h.aliases.symm, h.props.symm, h.body.symm⟩

theorem Definition.Alike.fullName_eq {d e : Definition} (h : d.Alike ρ e) :
    d.fullName = e.fullName := by
  rw [Definition.fullName, Definition.fullName, h.name, h.space]

theorem Body.Alike.typeName_eq (h : d.Alike ρ e) : d.typeName = e.typeName :=
  Body.Alike.cases (fun _ => rfl) (fun _ _ => rfl) (fun _ => rfl) h

theorem Body.Alike.fields (h : d.Alike ρ e) : List.Forall₂ (Field.Alike ρ) d.fields e.fields :=
  Body.Alike.cases (fun hf => hf) (fun _ _ => .nil) (fun _ => .nil) h

section
variable (hc : c.Alike ρ c')
include hc

theorem Catalog.Alike.fullName_eq {a b : TypeId} (h : ρ a b) : c.fullName a = c'.fullName b :=
  (hc a b h).fullName_eq

/-- Alike branches of a union have the same key. -/
theorem Schema.Alike.branchKey_eq (h : t.Alike ρ u) : t.branchKey c = u.branchKey c' :=
  Alike.induction (fun _ _ => rfl) (fun _ _ _ => rfl) (fun _ _ _ => rfl) (fun _ _ => rfl)
    (fun hab => hc.fullName_eq hab) h

end

/-! ### Default values -/

/-- The two named types consist of the same, but that the second may lack fields. -/
def Body.Subsumes (ρ : Matching) : Body → Body → Prop
  | .record isError fields, body => ∃ fields', body = .record isError fields' ∧
    ∀ g ∈ fields', ∃ f ∈ fields, f.name = g.name ∧ f.type.Alike ρ g.type ∧ f.default = g.default
  | body, body' => body' = body

/-- The definitions that match ask for no more than those of the first catalog. -/
def Catalog.Subsumes (ρ : Matching) (c c' : Catalog) : Prop :=
  ∀ a b, ρ a b → (c.definition a).body.Subsumes ρ (c'.definition b).body

theorem Body.Alike.subsumes (h : d.Alike ρ e) : d.Subsumes ρ e := by
  refine Body.Alike.cases (fun hf => ⟨_, rfl, fun g hg => ?_⟩) (fun _ _ => rfl) (fun _ => rfl) h
  obtain ⟨f, hmem, hfg⟩ := exists_mem_of_forall₂ hf.flip hg
  exact ⟨f, hmem, hfg.name, hfg.type, hfg.default⟩

namespace Json

/-- **A value of a type belongs to every alike type that asks for no more.** -/
theorem Belongs.of_subsumes (hc : c.Subsumes ρ c') {v : Json} (h : Belongs c v t)
    (hu : t.Alike ρ u) : Belongs c' v u := by
  induction h generalizing u with
  | null =>
    obtain ⟨_, rfl, -⟩ := hu
    exact .null
  | bool =>
    obtain ⟨_, rfl, -⟩ := hu
    exact .bool
  | int hk =>
    obtain ⟨_, rfl, -⟩ := hu
    exact .int hk
  | real hk =>
    obtain ⟨_, rfl, -⟩ := hu
    exact .real hk
  | string hk =>
    obtain ⟨_, rfl, -⟩ := hu
    exact .string hk
  | fixed hb =>
    obtain ⟨b, rfl, hab⟩ := hu
    have hsubsumes := hc _ b hab
    rw [hb] at hsubsumes
    exact .fixed hsubsumes
  | enum hb hs =>
    obtain ⟨b, rfl, hab⟩ := hu
    have hsubsumes := hc _ b hab
    rw [hb] at hsubsumes
    exact .enum hsubsumes hs
  | array _ ih =>
    obtain ⟨_, _, rfl, hi, -⟩ := hu
    exact .array fun v hv => ih v hv hi
  | map _ ih =>
    obtain ⟨_, _, rfl, hi, -⟩ := hu
    exact .map fun m hm => ih m hm hi
  | union _ ih =>
    obtain ⟨_, rfl, _, _, rfl, hb, -⟩ := hu
    exact .union (ih hb)
  | record hb _ hdefault ih =>
    obtain ⟨b, rfl, hab⟩ := hu
    have hsubsumes := hc _ b hab
    rw [hb] at hsubsumes
    obtain ⟨fields', hb', hfields⟩ := hsubsumes
    refine .record hb' (fun g hg v hv => ?_) (fun g hg hv => ?_) <;>
      obtain ⟨f, hf, hname, htype, hsame⟩ := hfields g hg <;> rw [← hname] at hv
    · exact ih f hf v hv htype
    · exact hsame ▸ hdefault f hf hv

/-- **A value belongs to either of two alike types or to none.** -/
theorem fits_alike (hc : c.Alike ρ c') (v : Json) (t u : Schema) (h : t.Alike ρ u) :
    v.fits c t = v.fits c' u := by
  rw [Bool.eq_iff_iff]
  refine ⟨fun hv => ((belongs_of_fits hv).of_subsumes (fun a b hab => ?_) h).fits,
    fun hv => ((belongs_of_fits hv).of_subsumes (fun b a hab => ?_) h.symm).fits⟩
  · exact (hc a b hab).body.subsumes
  · exact (hc a b hab).symm.body.subsumes

end Json

end Avroc
