import Avroc.Proofs.Registry.Closure

/-!
# Defaults

The default of a field is checked when the type of the field has been read.  By then the record that
the field belongs to lacks its last fields, and so do the records around it; all other records have
theirs, and keep them.  So a default that was accepted belongs to the type of its field later on,
unless the value stands for a record that leads back to the one with the field.

* `Scope.Builds.accepted` : **reading accepts defaults, and what was accepted stays so.**
* `ParseCall.defaults_runAll` : **all defaults of a registry that starts empty.**
-/

namespace Avroc

variable {c : Catalog} {t : Schema} {owner : TypeId} {v : Json} {base : Nat} {s : Scope}

/-! ### Types that do not matter -/

/-- Catalogs that agree on types which mention each other only are as good as each other for values
of these types. -/
theorem Json.fits_of_agree {c' : Catalog} {P : TypeId → Prop}
    (heq : ∀ id, P id → c.definition id = c'.definition id)
    (hover : ∀ id, P id → ∀ f ∈ (c.definition id).body.fields, f.type.Over P) (ht : t.Over P)
    (v : Json) : v.fits c t = v.fits c' t := by
  refine fits_alike (ρ := fun a b => a = b ∧ P a) ?_ v t t ht
  rintro a _ ⟨rfl, ha⟩
  rw [← heq a ha]
  exact Definition.alike_self fun f hf => hover a ha f hf

/-! ### What is accepted -/

/-- The value belonged to the type when some records lacked their last fields, all of which lead to
the type `owner`. -/
def Json.Accepted (c : Catalog) (owner : TypeId) (t : Schema) (v : Json) : Prop :=
  ∃ c₁ : Catalog, c₁.Cut c ∧ v.fits c₁ t = true ∧
    ∀ id, c₁.definition id ≠ c.definition id → (Schema.named id).Reaches c (.named owner)

/-- A value that enters no record that leads to the type `owner` belongs to the type for good. -/
theorem Json.Accepted.fits (h : v.Accepted c owner t)
    (henters : ∀ id, v.Enters c t id → ¬ (Schema.named id).Reaches c (.named owner)) :
    v.fits c t = true := by
  obtain ⟨c₁, hcut, hfits, hreach⟩ := h
  refine ((belongs_of_fits hfits).of_cut hcut fun id hid => ?_).fits
  by_contra hne
  exact henters id hid (hreach id hne)

namespace Scope

/-- The defaults of the types of the registry have been accepted. -/
def Accepted (s : Scope) : Prop :=
  ∀ owner ∈ s.registry.types, ∀ f ∈ (s.catalog.definition owner).body.fields, ∀ v ∈ f.default,
    v.Accepted s.catalog owner f.type

section
variable (h : s.Orderly base) (hs : s.Upright)
include h hs

/-- What was accepted stays so when a definition is entered. -/
theorem Upright.accepted_enter (ht : t.Stands s) (hv : v.Accepted s.catalog owner t)
    (d : Definition) : v.Accepted (s.enter d).catalog owner t := by
  obtain ⟨c, hcut, hfits, hreach⟩ := hv
  have hsame : ∀ id : TypeId, id.index ≠ c.size → (c.add d).2.definition id = c.definition id ∧
      (s.enter d).catalog.definition id = s.catalog.definition id := by
    intro id hid
    by_cases hlt : id.index < c.size
    · exact ⟨Catalog.definition_add_of_lt hlt d, definition_enter_of_lt (hcut.size ▸ hlt) d⟩
    · have hle : c.size + 1 ≤ id.index := by omega
      constructor
      · rw [Catalog.definition_of_size_le (by simpa using hle),
          Catalog.definition_of_size_le (by omega)]
      · rw [Catalog.definition_of_size_le (by simpa [← hcut.size] using hle),
          Catalog.definition_of_size_le (by rw [← hcut.size]; omega)]
  have hlast : (c.add d).2.definition ⟨c.size⟩ = (s.enter d).catalog.definition ⟨c.size⟩ := by
    rw [Catalog.definition_add_self, hcut.size, definition_enter_self]
  refine ⟨(c.add d).2, ⟨by simp [hcut.size], fun id => ?_⟩, ?_, fun id hne => ?_⟩
  · by_cases hid : id.index = c.size
    · obtain rfl : id = ⟨c.size⟩ := by cases id; exact congrArg _ hid
      exact hlast ▸ .refl _
    · rw [(hsame id hid).1, (hsame id hid).2]
      exact hcut.definition id
  · rw [← hfits]
    symm
    -- the types of the registry do not mention the new one
    refine Json.fits_of_agree (P := (· ∈ s.registry.types)) (fun id hid => ?_)
      (fun id hid f hf => ?_) ht.alike v
    · have hlt := (h.keyed.get?_fullName hid).1
      exact ((hsame id (by rw [hcut.size]; omega)).1).symm
    · exact (hs id hid f ((hcut.definition id).fields hf)).alike
  · by_cases hid : id.index = c.size
    · obtain rfl : id = ⟨c.size⟩ := by cases id; exact congrArg _ hid
      exact absurd hlast hne
    · rw [(hsame id hid).1, (hsame id hid).2] at hne
      exact (hreach id hne).mono (fields_enter s d)

/-- What was accepted stays so when a field is added to an open record. -/
theorem Upright.accepted_extend (ho : owner ∈ s.registry.types) {g : Field}
    (hg : g ∈ (s.catalog.definition owner).body.fields)
    (hv : v.Accepted s.catalog owner g.type) {id : TypeId} {f : Field} (hf : s.Admits id f) :
    v.Accepted (s.extend id f).catalog owner g.type := by
  obtain ⟨c, hcut, hfits, hreach⟩ := hv
  by_cases hlt : owner.index < id.index
  · -- the record is newer: nothing that it gets matters to the types before it
    have hid : id.index < s.catalog.size := by simpa using hf.remains.lt_size
    let c' := c.modify id fun _ => (s.extend id f).catalog.definition id
    have hother : ∀ other, other ≠ id → c'.definition other = c.definition other :=
      fun other hne => Catalog.definition_modify_of_ne hne _
    have hself : c'.definition id = (s.extend id f).catalog.definition id :=
      Catalog.definition_modify_self (hcut.size ▸ hid) _
    refine ⟨c', ⟨?_, fun other => ?_⟩, ?_, fun other hne => ?_⟩
    · rw [Catalog.size_modify, hcut.size, size_extend]
    · by_cases he : other = id
      · subst he
        exact hself ▸ .refl _
      · rw [hother other he, definition_extend_of_ne he]
        exact hcut.definition other
    · rw [← hfits]
      symm
      have hover : ∀ other ∈ s.registry.types, other.index < id.index →
          ∀ k ∈ (s.catalog.definition other).body.fields,
            k.type.Over fun a => a ∈ s.registry.types ∧ a.index < id.index := by
        intro other hmem hother k hk
        refine Schema.Over.and (hs other hmem k hk).alike ?_
        exact hf.remains.below other hmem hother k (fields_extend s id f other hk)
      refine Json.fits_of_agree (fun other hmem => ?_) (fun other hmem k hk => ?_)
        (hover owner ho hlt g hg) v
      · exact (hother other fun he => Nat.lt_irrefl _ (he ▸ hmem.2)).symm
      · exact hover other hmem.1 hmem.2 k ((hcut.definition other).fields hk)
    · have he : other ≠ id := by
        rintro rfl
        exact hne hself
      rw [hother other he, definition_extend_of_ne he] at hne
      exact (hreach other hne).mono (fields_extend s id f)
  · -- the record leads to the type that has the default
    refine ⟨c, cut_extend hcut id f, hfits, fun other hne => ?_⟩
    by_cases he : other = id
    · subst he
      refine hf.remains.spans owner (Nat.le_of_not_lt hlt) ?_
      simpa using (h.keyed.get?_fullName ho).1
    · rw [definition_extend_of_ne he] at hne
      exact (hreach other hne).mono (fields_extend s id f)

end

/-- **Reading accepts defaults, and what was accepted stays so**, where defaults are checked. -/
theorem Builds.accepted {legal : Prop} {s₀ : Scope} (h : Builds legal base s₀ s) (hs : s₀.Upright)
    (hc : s₀.registry.checksDefaults = true) (ha : s₀.Accepted) : s.Accepted := by
  induction h with
  | refl => exact ha
  | report record _ ih => exact ih
  | @enter s d h hn hb _ _ ih =>
    intro owner ho f hf v hv
    rcases mem_types_enter h.orderly hn ho with ⟨ho, hd⟩ | ⟨-, hd⟩ <;> rw [hd] at hf
    · exact (h.upright hs).accepted_enter h.orderly (h.upright hs owner ho f hf)
        (ih owner ho f hf v hv) d
    · rw [hb] at hf
      cases hf
  | @extend s id f h _ hadmits _ _ ih =>
    intro owner ho g hg v hv
    have hkept : g ∈ (s.catalog.definition owner).body.fields →
        v.Accepted (s.extend id f).catalog owner g.type := fun hg =>
      (h.upright hs).accepted_extend h.orderly ho hg (ih owner ho g hg v hv) hadmits
    rcases definition_extend s id f owner with hd | ⟨rfl, hd⟩ <;> rw [hd] at hg
    · exact hkept hg
    · rcases Definition.mem_fields_addField hg with hg | rfl
      · exact hkept hg
      · -- the default of the new field was checked with no record cut but the one it goes to
        obtain ⟨c, hcut, hfits⟩ := hadmits.default (h.grows.checksDefaults.trans hc) v hv
        have hcut := cutAt_extend hcut g
        refine ⟨c, hcut.toCut, hfits, fun other hne => ?_⟩
        obtain rfl : other = owner := by
          by_contra he
          exact hne (hcut.other other he)
        exact .refl _

end Scope

/-! ### All defaults of a registry -/

namespace ParseCall

/-- **All defaults of a registry that starts empty**, whatever documents are read in it and whether
they are refused or not.  A default was valid when some records lacked their last fields, all of
which lead to the record with the default; it is valid at the end, unless it enters such a
record. -/
theorem defaults_runAll (s : Scope) (hempty : s.registry.entries = [])
    (hc : s.registry.checksDefaults = true) (calls : List ParseCall) :
    let s' := (runAll calls s).2
    ∀ owner ∈ s'.registry.types, ∀ f ∈ (s'.catalog.definition owner).body.fields, ∀ v ∈ f.default,
      v.Accepted s'.catalog owner f.type ∧
        ((∀ id, v.Enters s'.catalog f.type id →
          ¬ (Schema.named id).Reaches s'.catalog (.named owner)) →
            v.fits s'.catalog f.type = true) := by
  intro s' owner ho f hf v hv
  have hnone : s.registry.types = [] := by rw [Registry.types, hempty]; rfl
  have hbuilds := (builds_runAll (Scope.orderly_of_empty hempty) calls).1
  have haccepted := hbuilds.accepted (fun id hid => by simp [hnone] at hid) hc
    (fun id hid => by simp [hnone] at hid) owner ho f hf v hv
  exact ⟨haccepted, haccepted.fits⟩

/-- The defaults of the types of a registry, with whether they are valid. -/
def validity (s : Scope) : List (String × String × Bool) :=
  s.registry.types.flatMap fun owner =>
    (s.catalog.definition owner).body.fields.flatMap fun f =>
      f.default.toList.map fun v => (s.catalog.fullName owner, f.name, v.fits s.catalog f.type)

/-- A record with a default for a record inside it and for its own successor, and a record of the
definition language with a default of the first type. -/
def defaulted : List ParseCall :=
  [.schema ("\x7b\"type\":\"record\",\"name\":\"A\",\"fields\":[" ++
      "\x7b\"name\":\"p\",\"type\":\x7b\"type\":\"record\",\"name\":\"P\",\"fields\":[" ++
      "\x7b\"name\":\"n\",\"type\":\"int\"\x7d]\x7d,\"default\":\x7b\"n\":1\x7d\x7d," ++
      "\x7b\"name\":\"next\",\"type\":[\"null\",\"A\"],\"default\":null\x7d]\x7d"),
    .idl ⟨.directory [] 0, [], 0, []⟩ none
      "protocol Q \x7b record B \x7b A a = \x7b\"p\": \x7b\"n\": 2\x7d\x7d; \x7d \x7d"]

theorem defaults_defaulted :
    let s := Scope.initial true true
    let s' := (runAll defaulted s).2
    (s.registry.entries = [] ∧ s.registry.checksDefaults = true) ∧
      ((runAll defaulted s).1.map (·.isOk) = [true, true] ∧
        validity s' = [("A", "p", true), ("A", "next", true), ("B", "a", true)]) ∧
      ∀ owner ∈ s'.registry.types, ∀ f ∈ (s'.catalog.definition owner).body.fields,
        ∀ v ∈ f.default, v.Accepted s'.catalog owner f.type ∧
          ((∀ id, v.Enters s'.catalog f.type id →
            ¬ (Schema.named id).Reaches s'.catalog (.named owner)) →
              v.fits s'.catalog f.type = true) :=
  ⟨⟨rfl, rfl⟩, by decide +kernel, defaults_runAll _ rfl rfl defaulted⟩

/-- A record whose first field has the record itself as its type, and a default that gives none of
its fields. -/
def selfDefaulted : List ParseCall :=
  [.schema ("\x7b\"type\":\"record\",\"name\":\"R\",\"fields\":[" ++
      "\x7b\"name\":\"x\",\"type\":\"R\",\"default\":\x7b\x7d\x7d," ++
      "\x7b\"name\":\"y\",\"type\":\"int\"\x7d]\x7d")]

/-- The record is read with all checks, and its default is not valid at the end. -/
theorem default_outgrown :
    (runAll selfDefaulted (.initial true true)).1.map (·.isOk) = [true] ∧
      validity (runAll selfDefaulted (.initial true true)).2 = [("R", "x", false)] := by
  decide +kernel

end ParseCall

end Avroc
