import Avroc.Proofs.Schema.Laying

/-!
# States that grow

Reading a document does two things to the state, whether it succeeds or not: it enters definitions
under new full names, and it adds fields to records that it has entered itself.

* `Scope.Adds.kept`, `Scope.Adds.solid`, `Scope.Adds.new_entries` : what follows for the state.
* `Scope.Adds.addAll_newTypes` : a registry with the types of a document added to it is the registry
  in which the document has been read.
-/

namespace Avroc

open List

variable {s s' s₀ : Scope} {name : String} {own : String → Prop} {id : TypeId}

/-- What the checks of names ask of a definition. -/
def Definition.Named (d : Definition) : Prop :=
  isLegalName d.name = true ∧ LegalSpace d.space

theorem Definition.Named.addField {d : Definition} (h : d.Named) (f : Field) :
    (d.addField f).Named := by
  unfold Definition.addField
  split <;> exact h

/-- What is added to a registry does not hide what was there. -/
theorem Registry.get?_of_prefix {r r' : Registry} (h : r.entries <+: r'.entries)
    (hn : r.get? name = some id) : r'.get? name = some id := by
  obtain ⟨new, he⟩ := h
  unfold Registry.get? at hn ⊢
  rw [← he, lookup_append, hn, Option.some_or]

namespace Scope

/-! ### Later states -/

/-- The second state has all that the first one has. -/
structure KeptIn (s s' : Scope) : Prop where
  size : s.catalog.size ≤ s'.catalog.size
  definition : ∀ id, id.index < s.catalog.size →
    s'.catalog.definition id = s.catalog.definition id
  entries : s.registry.entries <+: s'.registry.entries
  checksNames : s'.registry.checksNames = s.registry.checksNames
  checksDefaults : s'.registry.checksDefaults = s.registry.checksDefaults

theorem KeptIn.refl (s : Scope) : s.KeptIn s :=
  ⟨Nat.le_refl _, fun _ _ => rfl, prefix_refl _, rfl, rfl⟩

theorem KeptIn.trans {s₁ : Scope} (h : s.KeptIn s₁) (h' : s₁.KeptIn s') : s.KeptIn s' where
  size := Nat.le_trans h.size h'.size
  definition id hid :=
    (h'.definition id (Nat.lt_of_lt_of_le hid h.size)).trans (h.definition id hid)
  entries := h.entries.trans h'.entries
  checksNames := h'.checksNames.trans h.checksNames
  checksDefaults := h'.checksDefaults.trans h.checksDefaults

theorem KeptIn.get? (h : s.KeptIn s') (hn : s.registry.get? name = some id) :
    s'.registry.get? name = some id :=
  Registry.get?_of_prefix h.entries hn

theorem KeptIn.contains (h : s.KeptIn s') (hn : s.registry.contains name = true) :
    s'.registry.contains name = true := by
  obtain ⟨id, hid⟩ := Option.isSome_iff_exists.mp hn
  exact Registry.contains_of_get? (h.get? hid)

/-- The names of the registry lead to definitions, and definitions mention only definitions. -/
structure Solid (s : Scope) : Prop where
  get? : ∀ name id, s.registry.get? name = some id → id.index < s.catalog.size
  closed : s.catalog.Closed

/-! ### What reading may do -/

/-- The state has been reached by entering definitions whose full names are new and have the
property `own`, and by adding fields to records that were entered on the way. -/
inductive Adds (own : String → Prop) (s₀ : Scope) : Scope → Prop
  | refl : Adds own s₀ s₀
  | enter {s : Scope} {d : Definition} :
      Adds own s₀ s → s.registry.contains d.fullName = false → own d.fullName →
      d.body.fields = [] → (s.registry.checksNames = true → d.Named) → Adds own s₀ (s.enter d)
  | extend {s : Scope} {id : TypeId} {f : Field} :
      Adds own s₀ s → s₀.catalog.size ≤ id.index → f.type.Within s.catalog.size →
      Adds own s₀ (s.extend id f)

namespace Adds

theorem kept (h : s₀.Adds own s) : s₀.KeptIn s := by
  induction h with
  | refl => exact .refl s₀
  | @enter s d _ hn _ _ _ ih =>
    refine ih.trans ⟨by simp, fun id hid => definition_enter_of_lt hid d, ?_, rfl, rfl⟩
    rw [Scope.enter, Registry.entries_add_of_new hn]
    exact prefix_append _ _
  | @extend s id f _ hid _ ih =>
    refine ⟨by simpa using ih.size, fun other ho => ?_, ih.entries, ih.checksNames,
      ih.checksDefaults⟩
    have hne : other ≠ id := by
      rintro rfl
      exact Nat.not_lt.mpr hid ho
    rw [definition_extend_of_ne hne, ih.definition other ho]

theorem solid (h : s₀.Adds own s) (hs : s₀.Solid) : s.Solid := by
  induction h with
  | refl => exact hs
  | @enter s d _ hn _ hb _ ih =>
    refine ⟨fun name id hid => ?_, closed_enter ih.closed hb⟩
    rw [Scope.enter, Registry.get?_add] at hid
    split at hid
    · cases hid
      simp
    · simpa using Nat.lt_succ_of_lt (ih.get? name id hid)
  | @extend s id f _ _ hw ih =>
    exact ⟨fun name other hn => by simpa using ih.get? name other hn, closed_extend ih.closed id hw⟩

end Adds

/-- An entry of a registry that has come in since an earlier state. -/
structure NewEntry (own : String → Prop) (s₀ s : Scope) (e : String × TypeId) : Prop where
  own : own e.1
  new : s₀.registry.contains e.1 = false
  lower : s₀.catalog.size ≤ e.2.index
  upper : e.2.index < s.catalog.size
  fullName : s.catalog.fullName e.2 = e.1
  named : s₀.registry.checksNames = true → (s.catalog.definition e.2).Named

namespace Adds

/-- **The registry gets new entries at its end.** -/
theorem new_entries (h : s₀.Adds own s) : ∃ new, s.registry.entries = s₀.registry.entries ++ new ∧
    (new.map (·.1)).Nodup ∧ ∀ e ∈ new, NewEntry own s₀ s e := by
  induction h with
  | refl =>
    exact ⟨[], (append_nil _).symm, nodup_nil, fun e he => absurd he not_mem_nil⟩
  | @enter s d h hn ho _ hl ih =>
    obtain ⟨new, he, hnd, hnew⟩ := ih
    have hname : d.fullName ∉ s.registry.names := Registry.notMem_names_of_new hn
    rw [Registry.names, he, map_append, mem_append, not_or] at hname
    refine ⟨new ++ [(d.fullName, ⟨s.catalog.size⟩)], ?_, ?_, fun e hm => ?_⟩
    · rw [Scope.enter, Registry.entries_add_of_new hn, he, append_assoc]
    · rw [map_append, nodup_append]
      refine ⟨hnd, by simp, fun a ha b hb => ?_⟩
      obtain rfl := mem_singleton.mp hb
      rintro rfl
      exact hname.2 ha
    · rcases mem_append.mp hm with hm | hm
      · have hup := (hnew e hm).upper
        refine { hnew e hm with
          upper := by simpa using Nat.lt_succ_of_lt hup
          fullName := ?_
          named := fun hc => ?_ }
        · rw [Catalog.fullName, definition_enter_of_lt hup]
          exact (hnew e hm).fullName
        · rw [definition_enter_of_lt hup]
          exact (hnew e hm).named hc
      · obtain rfl := mem_singleton.mp hm
        refine ⟨ho, ?_, h.kept.size, by simp, by simp, fun hc => ?_⟩
        · exact Registry.contains_eq_false_iff.mpr (Registry.get?_eq_none_iff.mpr hname.1)
        · rw [definition_enter_self]
          exact hl (h.kept.checksNames.trans hc)
  | @extend s id f _ _ _ ih =>
    obtain ⟨new, he, hnd, hnew⟩ := ih
    refine ⟨new, he, hnd, fun e hm => ?_⟩
    have hup := (hnew e hm).upper
    refine { hnew e hm with
      upper := by simpa using hup
      fullName := (fullName_extend s id f e.2).trans (hnew e hm).fullName
      named := fun hc => ?_ }
    exact extend_induction ((hnew e hm).named hc) fun _ hd => hd.addField f

/-- A name of the later registry is one of before or a new one. -/
theorem get?_cases (h : s₀.Adds own s) (hn : s.registry.get? name = some id) :
    s₀.registry.get? name = some id ∨ NewEntry own s₀ s (name, id) := by
  obtain ⟨new, he, -, hnew⟩ := h.new_entries
  rw [Registry.get?, he, lookup_append, Option.or_eq_some_iff] at hn
  refine hn.imp_right fun hl => hnew _ ?_
  obtain ⟨l₁, l₂, rfl, -⟩ := lookup_eq_some_iff.mp hl.2
  simp

theorem contains_cases (h : s₀.Adds own s) (hn : s.registry.contains name = true) :
    s₀.registry.contains name = true ∨ own name := by
  obtain ⟨id, hid⟩ := Option.isSome_iff_exists.mp hn
  exact (h.get?_cases hid).imp Registry.contains_of_get? (·.own)

end Adds

end Scope

/-! ### Types of a document -/

/-- Types whose full names are new go to the end of a registry. -/
theorem Registry.addAll_of_new {c : Catalog} {new : List (String × TypeId)} {r : Registry}
    (hc : ∀ e ∈ new, c.fullName e.2 = e.1) (hnd : (new.map (·.1)).Nodup)
    (hr : ∀ e ∈ new, r.contains e.1 = false) :
    r.addAll c (new.map (·.2)) = { r with entries := r.entries ++ new } := by
  induction new generalizing r with
  | nil => rw [append_nil]; rfl
  | cons e new ih =>
    obtain ⟨name, id⟩ := e
    rw [map_cons, nodup_cons] at hnd
    have hname : c.fullName id = name := hc _ mem_cons_self
    have hadd := entries_add_of_new (hr _ mem_cons_self) id
    have hrest := ih (r := r.add name id) (fun e he => hc e (mem_cons_of_mem _ he)) hnd.2 ?_
    · show (r.add (c.fullName id) id).addAll c (new.map (·.2)) = _
      rw [hname, hrest, hadd, append_assoc]
      rfl
    · intro e he
      have hne : e.1 ≠ name := fun h => hnd.1 (mem_map.mpr ⟨e, he, h⟩)
      rw [contains, get?_add, if_neg hne]
      exact hr e (mem_cons_of_mem _ he)

/-- The new types are those of the new entries. -/
theorem Scope.Adds.exists_newTypes (h : s₀.Adds own s) :
    ∃ new, s.registry.entries = s₀.registry.entries ++ new ∧
      s.registry.newTypes s₀.registry.names = new.map (·.2) ∧ (new.map (·.1)).Nodup ∧
      ∀ e ∈ new, NewEntry own s₀ s e := by
  obtain ⟨new, he, hnd, hnew⟩ := h.new_entries
  have hold : s₀.registry.entries.filter (fun e => !s₀.registry.names.contains e.1) = [] := by
    rw [filter_eq_nil_iff]
    intro e he
    simpa [Registry.names] using ⟨e.2, he⟩
  have hkeep : new.filter (fun e => !s₀.registry.names.contains e.1) = new := by
    rw [filter_eq_self]
    intro e he
    simpa using Registry.notMem_names_of_new (hnew e he).new
  refine ⟨new, he, ?_, hnd, hnew⟩
  rw [Registry.newTypes, he, filter_append, hold, hkeep, nil_append]

/-- **The registry of before, with the new types added, is the registry after reading.** -/
theorem Scope.Adds.addAll_newTypes (h : s₀.Adds own s) :
    s₀.registry.addAll s.catalog (s.registry.newTypes s₀.registry.names) = s.registry := by
  obtain ⟨new, he, htypes, hnd, hnew⟩ := h.exists_newTypes
  rw [htypes, Registry.addAll_of_new (fun e he => (hnew e he).fullName) hnd
    fun e he => (hnew e he).new, ← he]
  show (⟨s.registry.entries, s₀.registry.checksNames, s₀.registry.checksDefaults⟩ : Registry) = _
  rw [← h.kept.checksNames, ← h.kept.checksDefaults]

/-- The new types are defined. -/
theorem Scope.Adds.lt_size (h : s₀.Adds own s) (hid : id ∈ s.registry.newTypes s₀.registry.names) :
    id.index < s.catalog.size := by
  obtain ⟨new, -, htypes, -, hnew⟩ := h.exists_newTypes
  rw [htypes] at hid
  obtain ⟨e, he, rfl⟩ := mem_map.mp hid
  exact (hnew e he).upper

end Avroc
