import Avroc.Proofs.Schema.Growth
import Avroc.Proofs.Schema.Tidy

/-!
# States that agree

Two states agree when the names that both of them know lead to alike definitions.  The states of
one run keep what they know, so agreement can be carried from one state of a run to another.

* `Agree.of_kept` : a state agrees with every later state of the same run.
* `Agree.merge` : agreement carried on over new names.
-/

namespace Avroc

open List

variable {d e : Definition} {ρ : Matching} {n : Nat} {t u : Schema} {f g : Field}

/-! ### Alike types and fields -/

theorem Definition.Alike.addField (h : d.Alike ρ e) (hf : f.Alike ρ g) :
    (d.addField f).Alike ρ (e.addField g) := by
  unfold Definition.addField
  refine Body.Alike.cases (fun hfs => ?_) (fun _ _ => h) (fun _ => h) h.body
  exact { h with body := ⟨_, rfl, rel_append hfs (.cons hf .nil)⟩ }

/-- A type that is alike to another mentions only what the matching has on its side. -/
theorem Schema.Alike.within_left (h : t.Alike ρ u) (hn : ∀ a b, ρ a b → a.index < n) :
    t.Within n := by
  refine Alike.induction ?primitive ?array ?map ?union ?named h
  case primitive => exact fun _ _ => ⟨_, rfl, rfl⟩
  case array => exact fun _ ih _ => ⟨_, _, rfl, ih, rfl⟩
  case map => exact fun _ ih _ => ⟨_, _, rfl, ih, rfl⟩
  case union =>
    intro ts us _ ih
    refine ⟨ts, rfl, Schema.allAlike_iff.mpr (List.forall₂_same.mpr fun t ht => ?_)⟩
    obtain ⟨u, -, hu⟩ := exists_mem_of_forall₂ ih ht
    exact hu
  case named => exact fun hab => ⟨_, rfl, rfl, hn _ _ hab⟩

theorem Schema.Alike.within_right (h : t.Alike ρ u) (hn : ∀ a b, ρ a b → b.index < n) :
    u.Within n :=
  h.symm.within_left fun b a => hn a b

/-- A type that is alike to one within a bound is so along what lies within the bound. -/
theorem Schema.Alike.restrict (h : t.Alike ρ u) (hu : u.Within n) :
    t.Alike (fun a b => ρ a b ∧ b.index < n) u :=
  h.over hu

theorem Definition.Alike.restrict (h : d.Alike ρ e) (he : ∀ f ∈ e.body.fields, f.type.Within n) :
    d.Alike (fun a b => ρ a b ∧ b.index < n) e := by
  refine { h with body := ?_ }
  revert he
  refine Body.Alike.cases (fun {_ _ fields'} hf he => ⟨fields', rfl, ?_⟩) (fun _ _ _ => rfl)
    (fun _ _ => rfl) h.body
  change ∀ f ∈ fields', f.type.Within n at he
  induction hf with
  | nil => exact .nil
  | cons hfg _ ih =>
    rw [forall_mem_cons] at he
    exact .cons { hfg with type := hfg.type.restrict he.1 } (ih he.2)

/-! ### Agreement -/

/-- Names that both states know lead to definitions that are alike along `ρ`, and both states ask
for the same checks. -/
structure Agree (ρ : Matching) (s s' : Scope) : Prop where
  range : ∀ a b, ρ a b → a.index < s.catalog.size ∧ b.index < s'.catalog.size
  alike : s.catalog.Alike ρ s'.catalog
  named : ∀ name a b, s.registry.get? name = some a → s'.registry.get? name = some b → ρ a b
  checksNames : s.registry.checksNames = s'.registry.checksNames
  checksDefaults : s.registry.checksDefaults = s'.registry.checksDefaults

namespace Agree

variable {ρ σ : Matching} {s s' t t' : Scope}

theorem symm (h : Agree ρ s s') : Agree (fun b a => ρ a b) s' s where
  range b a hab := (h.range a b hab).symm
  alike b a hab := (h.alike a b hab).symm
  named name b a hb ha := h.named name a b ha hb
  checksNames := h.checksNames.symm
  checksDefaults := h.checksDefaults.symm

/-- A state agrees with every later one. -/
theorem of_kept (hs : s.Solid) (h : s.KeptIn t) : Agree (Matching.below s.catalog.size) s t where
  range := by
    rintro a _ ⟨rfl, ha⟩
    exact ⟨ha, Nat.lt_of_lt_of_le ha h.size⟩
  alike := by
    rintro a _ ⟨rfl, ha⟩
    rw [h.definition a ha]
    exact Definition.alike_self fun f hf => hs.closed a ha f hf
  named name a b ha hb := by
    have he : some a = some b := (h.get? ha).symm.trans hb
    exact ⟨Option.some.inj he, hs.get? name a ha⟩
  checksNames := h.checksNames.symm
  checksDefaults := h.checksDefaults.symm

/-- Agreement with a later state gives agreement with an earlier one. -/
theorem restrict (h : Agree ρ s t') (hs' : s'.Solid) (hk : s'.KeptIn t') :
    Agree (fun a b => ρ a b ∧ b.index < s'.catalog.size) s s' where
  range a b hab := ⟨(h.range a b hab.1).1, hab.2⟩
  alike a b hab := by
    have hd := h.alike a b hab.1
    rw [hk.definition b hab.2] at hd
    exact hd.restrict fun f hf => hs'.closed b hab.2 f hf
  named name a b ha hb := ⟨h.named name a b ha (hk.get? hb), hs'.get? name b hb⟩
  checksNames := h.checksNames.trans hk.checksNames
  checksDefaults := h.checksDefaults.trans hk.checksDefaults

theorem restrict_left (h : Agree ρ t s') (hs : s.Solid) (hk : s.KeptIn t) :
    Agree (fun a b => ρ a b ∧ a.index < s.catalog.size) s s' :=
  (h.symm.restrict hs hk).symm

/-- Agreement along two matchings, one for the names of an earlier state and one for new names. -/
theorem merge (h : Agree ρ s t') (hs : s.KeptIn t) (h' : Agree σ t s') (hs' : s'.KeptIn t')
    (hnew : ∀ name a, t.registry.get? name = some a →
      s.registry.get? name = some a ∨ s'.registry.contains name = true) :
    Agree (fun a b => ρ a b ∨ σ a b) t t' where
  range := by
    rintro a b (hab | hab)
    · exact ⟨Nat.lt_of_lt_of_le (h.range a b hab).1 hs.size, (h.range a b hab).2⟩
    · exact ⟨(h'.range a b hab).1, Nat.lt_of_lt_of_le (h'.range a b hab).2 hs'.size⟩
  alike := by
    rintro a b (hab | hab)
    · rw [hs.definition a (h.range a b hab).1]
      exact (h.alike a b hab).mono fun _ _ => .inl
    · rw [hs'.definition b (h'.range a b hab).2]
      exact (h'.alike a b hab).mono fun _ _ => .inr
  named name a b ha hb := by
    rcases hnew name a ha with hold | hnew
    · exact .inl (h.named name a b hold hb)
    · obtain ⟨b', hb'⟩ := Option.isSome_iff_exists.mp hnew
      obtain rfl : b' = b := Option.some.inj ((hs'.get? hb').symm.trans hb)
      exact .inr (h'.named name a b' ha hb')
  checksNames := hs.checksNames.trans h.checksNames
  checksDefaults := hs.checksDefaults.trans h.checksDefaults

end Agree

end Avroc
