import Avroc.Proofs.Protocol.RoundTrip
import Avroc.Proofs.Registry.Closure
import Avroc.Proofs.Schema.Rerooting

/-!
# Types on their own

A document defines many types, and each of them has a document of its own, which a module carries
with it.  That document starts with another type, so that the definitions stand inside each other in
another way than where they come from: another namespace is around them, and other records are
unfinished when a default is checked.

* `ParseCall.document_selfContained` : **the document of a type that was defined somewhere in
  another document is read again**, unless a namespace or a default is in the way.
-/

namespace Avroc

open List

variable {d : Definition} {seen : List TypeId} {f : Field} {s s' : Scope} {id a : TypeId}

/-! ### Clean definitions -/

/-- All definitions of the catalog are clean. -/
def Catalog.Clean (c : Catalog) : Prop :=
  ∀ id, id.index < c.size → (c.definition id).Clean

/-- The types of the piece are clean; fields are clean where they have been added. -/
def Piece.Clean : Piece → Prop
  | .type t => t.Clean
  | .branches ts => ∀ t ∈ ts, t.Clean
  | .fields _ _ => True

theorem Definition.Declarable.clean (h : d.Declarable) : d.Clean where
  aliases := h.aliases
  props := h.props
  size size hb := by
    have hbody := h.body
    rw [hb] at hbody
    exact hbody
  fields := by
    have hbody := h.body
    cases hb : d.body with
    | record isError fields =>
      rw [hb] at hbody
      exact fun f hf => absurd hf (by rw [hbody]; exact not_mem_nil)
    | enum | fixed => exact forall_mem_nil _

theorem Definition.Clean.addField (h : d.Clean) (hf : f.Clean) :
    (d.addField f).Clean := by
  have hfields := forall_fields_addField h.fields hf
  rcases d.addField_cases f with he | ⟨_, _, -, he⟩ <;> rw [he] at hfields ⊢
  · exact h
  · exact ⟨h.aliases, h.props, fun size hs => (nomatch hs), hfields⟩

namespace Catalog.Clean

theorem enter (h : s.catalog.Clean) (hd : d.Declarable) : (s.enter d).catalog.Clean :=
  Scope.enter_induction h hd.clean

theorem extend (h : s.catalog.Clean) (id : TypeId) (hf : f.Clean) :
    (s.extend id f).catalog.Clean := by
  intro other hid
  rw [Scope.size_extend] at hid
  exact Scope.extend_induction (h other hid) fun _ hd => hd.addField hf

end Catalog.Clean

/-- **Laying a piece brings clean definitions.** -/
theorem Lays.clean {p : Piece} (h : Lays s p s') (hs : s.catalog.Clean) :
    s'.catalog.Clean ∧ p.Clean := by
  induction h with
  | primitive hp => exact ⟨hs, .primitive hp⟩
  | array hp _ ih => exact ⟨(ih hs).1, .array hp (ih hs).2⟩
  | map hp _ ih => exact ⟨(ih hs).1, .map hp (ih hs).2⟩
  | union _ _ ih => exact ⟨(ih hs).1, .union (ih hs).2⟩
  | known => exact ⟨hs, .named _⟩
  | leaf hd _ _ => exact ⟨hs.enter hd, .named _⟩
  | record hd _ _ _ ih => exact ⟨(ih (hs.enter hd)).1, .named _⟩
  | noBranch => exact ⟨hs, forall_mem_nil _⟩
  | branch _ _ ih ih' =>
    obtain ⟨hs₁, ht⟩ := ih hs
    obtain ⟨hs', hts⟩ := ih' hs₁
    exact ⟨hs', forall_mem_cons.mpr ⟨ht, hts⟩⟩
  | noField => exact ⟨hs, trivial⟩
  | @field _ _ _ id _ _ _ hf _ _ ih ih' =>
    obtain ⟨hs₁, ht⟩ := ih hs
    exact ⟨(ih' (hs₁.extend id ⟨ht, hf.order, hf.aliases, hf.props⟩)).1, trivial⟩

theorem Laid.clean (h : Laid s s') (hs : s.catalog.Clean) : s'.catalog.Clean := by
  induction h with
  | refl => exact hs
  | step hd _ _ ih => exact ih (hd.clean hs).1

/-! ### The document of a type -/

namespace ParseCall

variable {call : ParseCall} {r : Parsed}

/-- A document in JSON brings clean definitions. -/
theorem clean_run (h : Yields call.run (.initial true true) r s)
    (hcall : ∀ disk path text, call ≠ .idl disk path text) : s.catalog.Clean := by
  have hinitial : (Scope.initial true true).catalog.Clean := fun id hid =>
    absurd hid (Nat.not_lt_zero _)
  cases call with
  | schema text =>
    obtain ⟨t, _, h, hr⟩ := yields_bind.mp h
    obtain ⟨-, rfl⟩ := yields_pure.mp hr
    obtain ⟨v, _, hv, h⟩ := yields_bind.mp h
    obtain rfl := (still_liftM _).state_eq hv
    exact ((lays_of_readSchema Scope.sound_initial h).clean hinitial).1
  | protocol text =>
    obtain ⟨p, _, h, hr⟩ := yields_bind.mp h
    obtain ⟨-, rfl⟩ := yields_pure.mp hr
    obtain ⟨v, _, hv, h⟩ := yields_bind.mp h
    obtain rfl := (still_liftM _).state_eq hv
    exact (settled_of_readProtocol h).1.clean hinitial
  | idl disk path text => exact absurd rfl (hcall disk path text)

section
variable (h : Yields call.run (.initial true true) r s)
include h

/-- A document leaves a registry in order, whose types keep the rules. -/
theorem lawful_run : s.Orderly 0 ∧ s.Lawful := by
  obtain ⟨hbuilds, -⟩ := (call.leads_run (Scope.orderly_of_empty rfl)).of_yields h
  exact ⟨hbuilds.orderly, hbuilds.lawful rfl fun id hid => absurd hid not_mem_nil⟩

variable (hid : id ∈ s.registry.types)
include hid

theorem mem_types_of_reachable (ha : a ∈ (Schema.named id).reachable s.catalog) :
    a ∈ s.registry.types := by
  -- fields of types of the registry name such types only
  refine Catalog.walk_enter (P := (· ∈ s.registry.types))
    (R := fun seen seen' => (∀ a ∈ seen, a ∈ s.registry.types) → ∀ a ∈ seen', a ∈ s.registry.types)
    (fun _ hseen => hseen) (fun h₁ h₂ hseen => h₂ (h₁ hseen)) (fun _ _ hid _ hseen => ?_)
    (fun a ha f hf => (((lawful_run h).2 a ha).2 f hf).alike) _ id hid [] (forall_mem_nil _) a ha
  exact forall_mem_append.mpr ⟨hseen, forall_mem_singleton.mpr hid⟩

/-- A type that has been defined can be read again, if its definition is clean and neither its name
nor a default is in the way. -/
theorem portable_run (hclean : (s.catalog.definition id).Clean)
    (hname : (s.catalog.definition id).space = none →
      Primitive.ofName? (s.catalog.definition id).name = none)
    (hdefaults : ∀ (n : Nat) (f : Field), (s.catalog.definition id).body.fields[n]? = some f →
      ∀ v ∈ f.default, v.fits (s.catalog.keep id n) f.type = true) : s.Portable id := by
  obtain ⟨horderly, hlawful⟩ := lawful_run h
  obtain ⟨hlt, hknown⟩ := horderly.keyed.get?_fullName hid
  obtain ⟨hlaw, hstands⟩ := hlawful id hid
  refine ⟨hlt, hknown, ?_, hlaw, hclean, hstands, hdefaults⟩
  rw [Catalog.fullName, Definition.fullName]
  cases hs : (s.catalog.definition id).space with
  | none => exact hname hs
  | some text =>
    have hne := (hclean.declarable hlaw).space_ne_empty
    exact Primitive.ofName?_of_dot_mem (dot_mem_joinName (fun he => hne (he ▸ hs)) _)

/-- **The document of a type that was defined somewhere in another document is read again**, in an
empty registry with all checks: what is read has the same full name and reaches the same full names
in the same order.  Of the types that it reaches, those with a namespace only reach types with one,
none without a namespace has the name of a primitive type, and a default belongs to the type of its
field while the record has only the fields before it.  The definitions of an interface document
are clean; those of a document in JSON always are. -/
theorem document_selfContained
    (hspace : ∀ a ∈ (Schema.named id).reachable s.catalog, (s.catalog.definition a).space ≠ none →
      ∀ b ∈ (Schema.named a).reachable s.catalog, (s.catalog.definition b).space ≠ none)
    (hname : ∀ a ∈ (Schema.named id).reachable s.catalog, (s.catalog.definition a).space = none →
      Primitive.ofName? (s.catalog.definition a).name = none)
    (hdefaults : ∀ a ∈ (Schema.named id).reachable s.catalog, ∀ (n : Nat) (f : Field),
      (s.catalog.definition a).body.fields[n]? = some f →
        ∀ v ∈ f.default, v.fits (s.catalog.keep a n) f.type = true)
    (hidl : ∀ disk path text, call = .idl disk path text →
      ∀ a ∈ (Schema.named id).reachable s.catalog, (s.catalog.definition a).Clean) :
    ∃ document id' s', (Schema.named id).document s.catalog = .ok document ∧
      Yields (readSchema document .root) (.initial true true) (.named id') s' ∧
      s'.catalog.fullName id' = s.catalog.fullName id ∧
      ((Schema.named id').reachable s'.catalog).map s'.catalog.fullName =
        ((Schema.named id).reachable s.catalog).map s.catalog.fullName := by
  refine Scope.document_reread_of_portable (fun a ha => ?_) hspace
  have hmem := mem_types_of_reachable h hid ha
  refine portable_run h hmem ?_ (hname a ha) (hdefaults a ha)
  by_cases hcall : ∃ disk path text, call = .idl disk path text
  · obtain ⟨disk, path, text, he⟩ := hcall
    exact hidl disk path text he a ha
  · obtain ⟨horderly, -⟩ := lawful_run h
    exact clean_run h (fun disk path text he => hcall ⟨disk, path, text, he⟩) a
      (horderly.keyed.get?_fullName hmem).1

end

/-- Two records that lead to each other and a fixed type, in three namespaces. -/
def ringText : String :=
  "\x7b\"type\":\"record\",\"name\":\"x.A\",\"fields\":[\x7b\"name\":\"b\",\"type\":" ++
    "\x7b\"type\":\"record\",\"name\":\"y.B\",\"fields\":[" ++
      "\x7b\"name\":\"a\",\"type\":[\"null\",\"x.A\"],\"default\":null\x7d]\x7d\x7d," ++
    "\x7b\"name\":\"n\",\"type\":\x7b\"type\":\"fixed\",\"name\":\"z.N\",\"size\":1\x7d\x7d]\x7d"

/-- The document of the inner record has the outer one inside it. -/
theorem document_selfContained_ring :
    ∃ r s, Yields (schema ringText).run (.initial true true) r s ∧ ⟨1⟩ ∈ s.registry.types ∧
      ((Schema.named ⟨1⟩).reachable s.catalog).map s.catalog.fullName = ["y.B", "x.A", "z.N"] ∧
      ∃ document id' s', (Schema.named ⟨1⟩).document s.catalog = .ok document ∧
        Yields (readSchema document .root) (.initial true true) (.named id') s' ∧
        s'.catalog.fullName id' = s.catalog.fullName ⟨1⟩ ∧
        ((Schema.named id').reachable s'.catalog).map s'.catalog.fullName =
          ((Schema.named ⟨1⟩).reachable s.catalog).map s.catalog.fullName := by
  have hrun : succeeds (schema ringText).run (.initial true true) (fun _ s =>
      s.registry.types.contains ⟨1⟩ &&
      (((Schema.named ⟨1⟩).reachable s.catalog).map s.catalog.fullName == ["y.B", "x.A", "z.N"]) &&
      ((Schema.named ⟨1⟩).reachable s.catalog).all (fun a =>
        (s.catalog.definition a).space.isSome &&
        ((Schema.named a).reachable s.catalog).all
          (fun b => (s.catalog.definition b).space.isSome) &&
        (s.catalog.definition a).body.fields.zipIdx.all fun p =>
          p.1.default.all fun v => v.fits (s.catalog.keep a p.2) p.1.type)) = true := by
    decide +kernel
  obtain ⟨r, s, h, htest⟩ := exists_of_succeeds _ _ _ hrun
  simp only [Bool.and_eq_true, contains_iff_mem, beq_iff_eq, all_eq_true,
    Option.isSome_iff_ne_none] at htest
  obtain ⟨⟨hid, hnames⟩, hall⟩ := htest
  refine ⟨r, s, h, hid, hnames, document_selfContained h hid (fun a ha _ => (hall a ha).1.2)
    (fun a ha hs => absurd hs (hall a ha).1.1) (fun a ha n f hf v hv => ?_) nofun⟩
  have hfields := (hall a ha).2 (f, n) (mem_zipIdx_iff_getElem?.mpr hf)
  rw [Option.all_eq_true] at hfields
  exact hfields v hv

/-- A type without a namespace inside one with a namespace. -/
def strayText : String :=
  "\x7b\"type\":\"record\",\"name\":\"R\",\"namespace\":\"a\",\"fields\":[\x7b\"name\":\"n\"," ++
    "\"type\":\x7b\"type\":\"fixed\",\"name\":\"N\",\"namespace\":\"\",\"size\":1\x7d\x7d]\x7d"

/-- In the document of a type nothing says that a type inside it has no namespace, and it moves to
the one around it. -/
theorem document_moved :
    ∃ r s document t s', Yields (schema strayText).run (.initial true true) r s ∧
      ⟨0⟩ ∈ s.registry.types ∧
      ((Schema.named ⟨0⟩).reachable s.catalog).map s.catalog.fullName = ["a.R", "N"] ∧
      (Schema.named ⟨0⟩).document s.catalog = .ok document ∧
      Yields (readSchema document .root) (.initial true true) t s' ∧
      (t.reachable s'.catalog).map s'.catalog.fullName = ["a.R", "a.N"] := by
  have hrun : succeeds (schema strayText).run (.initial true true) (fun _ s =>
      s.registry.types.contains ⟨0⟩ &&
      (((Schema.named ⟨0⟩).reachable s.catalog).map s.catalog.fullName == ["a.R", "N"]) &&
      ((Schema.named ⟨0⟩).document s.catalog).toOption.any fun document =>
        succeeds (readSchema document .root) (.initial true true) fun t s' =>
          (t.reachable s'.catalog).map s'.catalog.fullName == ["a.R", "a.N"]) = true := by
    decide +kernel
  obtain ⟨r, s, h, htest⟩ := exists_of_succeeds _ _ _ hrun
  simp only [Bool.and_eq_true, contains_iff_mem, beq_iff_eq, Option.any_eq_true] at htest
  obtain ⟨⟨hid, hnames⟩, document, hdocument, hread⟩ := htest
  obtain ⟨t, s', hy, hmoved⟩ := exists_of_succeeds _ _ _ hread
  refine ⟨r, s, document, t, s', h, hid, hnames, ?_, hy, beq_iff_eq.mp hmoved⟩
  cases hd : (Schema.named ⟨0⟩).document s.catalog with
  | error cause => rw [hd] at hdocument; cases hdocument
  | ok _ => rw [hd] at hdocument; rw [Option.some.inj hdocument]

-- a default that is accepted for a record without fields, and refused where that record is whole
example : succeeds (readSchema (.object [("type", .string "record"), ("name", .string "A"),
    ("fields", .array [
      .object [("name", .string "b"), ("type", .object [("type", .string "record"),
        ("name", .string "B"), ("fields", .array [
          .object [("name", .string "a"), ("type", .string "A"), ("default", .object [])]])])],
      .object [("name", .string "y"), ("type", .string "int")]])]) .root) (.initial true true)
    (fun _ s => ((Schema.named ⟨1⟩).document s.catalog).toOption.any fun document =>
      !succeeds (readSchema document .root) (.initial true true) fun _ _ => true) = true := by
  decide +kernel

end ParseCall

end Avroc
