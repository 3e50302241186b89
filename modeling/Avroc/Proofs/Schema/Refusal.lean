import Avroc.Proofs.Module.Rendering
import Avroc.Proofs.Schema.Alike
import Avroc.Proofs.Schema.Reading

/-!
# What reading a type cannot take

A document that describes no type is refused.  Other errors come from values of the wrong kind: an
order or a logical type that is an array or an object, which nothing can be looked up by, and
aliases of a field that are no list.  Readers check aliases, so that these come from types that
were known before.

* `ends_readSchema` : **reading a type ends with a type whose fields are mild, with a refusal, or
  with a value of the wrong kind that is there.**
-/

namespace Avroc

open List

variable {d : Definition} {f : Field} {ms : Members} {cause : Misuse} {s s₀ : Scope}
  {v : Json} {fault : Misuse → Prop} {c : Catalog}

/-! ### Documents of types -/

/-- A field of the catalog has aliases that give the fault. -/
def Catalog.Upsets (c : Catalog) (cause : Misuse) : Prop :=
  ∃ id, ∃ f ∈ (c.definition id).body.fields, aliasesMember f.aliases = .error cause

/-- The step of writing a document meets these faults only. -/
abbrev Documents {α : Type} (fault : Misuse → Prop) (step : Documenting α) : Prop :=
  Renders (fun _ => True) fault (fun _ => True) step

section
variable {mention : Mention} (hm : ∀ id, Documents fault (mention id))
include hm

theorem documents_type (t : Schema) : Documents fault (t.documentWith mention) := by
  induction t using Schema.nestedInduction with
  | primitive kind props => exact renders_pure trivial
  | array items props ih => exact ih.bind fun _ _ => renders_pure trivial
  | map values props ih => exact ih.bind fun _ _ => renders_pure trivial
  | union branches ih =>
    suffices hbranches : Documents fault (Schema.branchDocuments mention branches) from
      hbranches.bind fun _ _ => renders_pure trivial
    induction branches with
    | nil => exact renders_pure trivial
    | cons t ts ihs =>
      obtain ⟨ht, hts⟩ := forall_mem_cons.mp ih
      exact ht.bind fun _ _ => (ihs hts).bind fun _ _ => renders_pure trivial
  | named id => exact hm id

theorem documents_fields {fs : List Field}
    (hfs : ∀ f ∈ fs, ∀ cause, aliasesMember f.aliases = .error cause → fault cause) :
    Documents fault (Field.documentsWith mention fs) := by
  induction fs with
  | nil => exact renders_pure trivial
  | cons f fs ih =>
    obtain ⟨hf, hfs⟩ := forall_mem_cons.mp hfs
    have hfield : Documents fault (f.documentWith mention) :=
      (documents_type hm f.type).bind fun _ _ =>
        (renders_liftM (fun _ _ => trivial) hf).bind fun _ _ => renders_pure trivial
    exact hfield.bind fun _ _ => (ih hfs).bind fun _ _ => renders_pure trivial

theorem documents_definition
    (hfields : ∀ f ∈ d.body.fields, ∀ cause, aliasesMember f.aliases = .error cause → fault cause) :
    Documents fault (d.documentWith mention) := by
  have hbody : Documents fault (Definition.bodyMembers mention d.body) := by
    cases hb : d.body with
    | record isError fields =>
      rw [hb] at hfields
      exact (documents_fields hm hfields).bind fun _ _ => renders_pure trivial
    | enum | fixed => exact renders_pure trivial
  exact (renders_modifyGet (P := fun _ => True) fun _ _ => ⟨trivial, trivial⟩).bind fun _ _ =>
    hbody.bind fun _ _ => renders_pure trivial

end

theorem documents_mention (c : Catalog) (depth : Nat) (id : TypeId) :
    Documents c.Upsets (c.mention depth id) := by
  induction depth generalizing id with
  | zero =>
    refine renders_get fun names => ?_
    split <;> exact renders_pure trivial
  | succ depth ih =>
    refine renders_get fun names => ?_
    split
    · exact renders_pure trivial
    · exact documents_definition ih fun f hf cause h => ⟨id, f, hf, h⟩

/-- **A type without a document leads to a field whose aliases are no list.** -/
theorem upsets_of_document {t : Schema} (h : t.document c = .error cause) : c.Upsets cause :=
  (documents_type (documents_mention c c.size) t).fault [] cause trivial (map_eq_error.mp h)

/-! ### Parts of a value -/

/-- The second value is a part of the first, or the first itself. -/
inductive Json.Part : Json → Json → Prop
  | refl (v : Json) : Part v v
  | item {items : List Json} {v w : Json} : v ∈ items → Part v w → Part (.array items) w
  | member {members : Members} {m : String × Json} {w : Json} :
      m ∈ members → Part m.2 w → Part (.object members) w

/-- The order or the logical type is an array or an object. -/
def Members.Upsets (ms : Members) (cause : Misuse) : Prop :=
  ∃ key v, (key = "order" ∨ key = "logicalType") ∧ ms.get? key = some v ∧ v.Unhashable cause

/-- An object in the value has an order or a logical type that is an array or an object. -/
def Json.Upsets (v : Json) (cause : Misuse) : Prop :=
  ∃ ms : Members, v.Part (.object ms) ∧ ms.Upsets cause

theorem Members.get?_without {keys : List String} {key : String} (h : keys.contains key = false) :
    (ms.without keys).get? key = ms.get? key := by
  induction ms with
  | nil => rfl
  | cons m ms ih =>
    obtain ⟨k, v⟩ := m
    rw [without] at ih ⊢
    by_cases hk : keys.contains k = true
    · rw [filter_cons_of_neg (by simpa using hk), get?_cons, ih, if_neg]
      rintro rfl
      rw [h] at hk
      cases hk
    · rw [filter_cons_of_pos (by simpa using hk), get?_cons, get?_cons, ih]

/-- Only a logical type that is an array or an object has no class. -/
theorem Members.upsets_of_timeClass (h : timeClass (ms.without typeAttributes) = .error cause) :
    ms.Upsets cause := by
  unfold timeClass at h
  rw [get?_without (by decide)] at h
  split at h
  · cases h
  · rename_i items hv
    cases h
    exact ⟨_, _, .inr rfl, hv, .inl ⟨items, rfl⟩, rfl⟩
  · rename_i members hv
    cases h
    exact ⟨_, _, .inr rfl, hv, .inr ⟨members, rfl⟩, rfl⟩
  · cases h

/-! ### Mild fields -/

/-- The hint of the type meets these faults only. -/
def Schema.Mild (fault : Misuse → Prop) : Schema → Prop :=
  Each (fun props => ∀ cause, timeClass props = .error cause → fault cause) fun _ => True

/-- The hint of the field meets these faults only, and its aliases none. -/
structure Field.Mild (fault : Misuse → Prop) (f : Field) : Prop where
  type : f.type.Mild fault
  aliases : ∀ cause, aliasesMember f.aliases ≠ .error cause

theorem Schema.mild_plain (fault : Misuse → Prop) (kind : Primitive) :
    (Schema.plain kind).Mild fault :=
  .primitive fun _ h => nomatch h

/-- A list of aliases is taken as it is. -/
theorem aliasesMember_array (items : List Json) (cause : Misuse) :
    aliasesMember (.array items) ≠ .error cause := by
  unfold aliasesMember
  split <;> simp [Json.elements?]

/-- The state has been reached from `s₀` by adding types whose fields are mild; the faults of the
types of before are among those given. -/
structure Scope.Harmless (fault : Misuse → Prop) (s₀ s : Scope) : Prop where
  known : ∀ cause, s₀.catalog.Upsets cause → fault cause
  size : s₀.catalog.size ≤ s.catalog.size
  entries : ∃ new, s.registry.entries = s₀.registry.entries ++ new ∧
    ∀ e ∈ new, s₀.catalog.size ≤ e.2.index
  aliases : ∀ cause, s.catalog.Upsets cause → s₀.catalog.Upsets cause
  hints : ∀ id : TypeId, s₀.catalog.size ≤ id.index →
    ∀ f ∈ (s.catalog.definition id).body.fields, f.type.Mild fault

namespace Scope.Harmless

theorem refl (h : ∀ cause, s₀.catalog.Upsets cause → fault cause) : Harmless fault s₀ s₀ where
  known := h
  size := Nat.le_refl _
  entries := ⟨[], (append_nil _).symm, forall_mem_nil _⟩
  aliases _ h := h
  hints id hid f hf := by
    rw [Catalog.definition_of_size_le hid] at hf
    cases hf

theorem enter (h : Harmless fault s₀ s) (hd : d.body.fields = [])
    (hn : s.registry.contains d.fullName = false) : Harmless fault s₀ (s.enter d) := by
  -- a field of a type after the step is a field of before
  have hfields : ∀ id : TypeId, ((s.enter d).catalog.definition id).body.fields =
      (s.catalog.definition id).body.fields := by
    intro id
    by_cases hid : id.index < s.catalog.size
    · rw [definition_enter_of_lt hid]
    · rw [Catalog.definition_of_size_le (Nat.le_of_not_lt hid)]
      by_cases he : id.index = s.catalog.size
      · obtain rfl : id = ⟨s.catalog.size⟩ := by cases id; exact congrArg _ he
        rw [definition_enter_self, hd]
        rfl
      · rw [Catalog.definition_of_size_le (by simp; omega)]
  refine ⟨h.known, Nat.le_trans h.size (by simp), ?_, ?_, fun id hid f hf => ?_⟩
  · obtain ⟨new, hnew, hle⟩ := h.entries
    refine ⟨new ++ [(d.fullName, ⟨s.catalog.size⟩)], ?_, ?_⟩
    · rw [Scope.enter, Registry.entries_add_of_new hn, hnew, append_assoc]
    · exact forall_mem_append.mpr ⟨hle, forall_mem_singleton.mpr h.size⟩
  · rintro cause ⟨id, f, hf, hcause⟩
    exact h.aliases cause ⟨id, f, hfields id ▸ hf, hcause⟩
  · exact h.hints id hid f (hfields id ▸ hf)

theorem extend (h : Harmless fault s₀ s) (id : TypeId) (hf : f.Mild fault) :
    Harmless fault s₀ (s.extend id f) := by
  refine ⟨h.known, by simpa using h.size, h.entries, ?_, fun other ho =>
    forall_fields_extend (Q := (·.type.Mild fault)) (h.hints other ho) hf.type⟩
  rintro cause ⟨other, g, hg, hcause⟩
  refine h.aliases cause ⟨other, g, ?_, hcause⟩
  refine (forall_fields_extend (Q := fun g => g ∈ _ ∨ g = f) (fun g hg => .inl hg) (.inr rfl)
    g hg).resolve_right ?_
  rintro rfl
  exact hf.aliases cause hcause

/-- The types that are new have mild fields. -/
theorem newTypes (h : Harmless fault s₀ s) :
    ∀ id ∈ s.registry.newTypes s₀.registry.names,
      ∀ f ∈ (s.catalog.definition id).body.fields, f.type.Mild fault := by
  intro id hid
  obtain ⟨new, hnew, hle⟩ := h.entries
  obtain ⟨e, he, rfl⟩ := mem_map.mp hid
  obtain ⟨he, hfresh⟩ := mem_filter.mp he
  rw [hnew] at he
  rcases mem_append.mp he with he | he
  · have hold : e.1 ∈ s₀.registry.names := mem_map_of_mem he
    simp [hold] at hfresh
  · exact h.hints e.2 (hle e he)

end Scope.Harmless

/-! ### Reading -/

/-- What reading a value without other faults ends with. -/
def refusing (fault : Misuse → Prop) (s₀ : Scope) : Account where
  value v := ∀ cause, v.Upsets cause → fault cause
  rel _ s' := s₀.Harmless fault s'
  error e := e.Refuses fault
  type _ _ _ t _ := t.Mild fault
  branches _ _ _ ts _ := ∀ t ∈ ts, t.Mild fault
  field _ _ _ f _ := f.Mild fault
  record _ _ _ _ := True
  item hv _ hm cause := fun ⟨ms, hpart, hms⟩ => hv cause ⟨ms, .item hm hpart, hms⟩
  member hv _ hm cause := fun ⟨ms, hpart, hms⟩ => hv cause ⟨ms, .member hm hpart, hms⟩
  next h := h
  trans _ h := h
  refused _ _ _ := .inl ⟨_, _, _, rfl⟩
  order hv ho h := .inr ⟨_, rfl, hv _ ⟨_, .refl _, _, _, .inl rfl, ho, h⟩⟩
  document h hd := .inr ⟨_, rfl, h.known _ (h.aliases _ (upsets_of_document hd))⟩
  primitive _ := Schema.mild_plain fault _
  reference _ _ _ := .named trivial
  attributed hv _ _ := .primitive fun cause he =>
    hv cause ⟨_, .refl _, Members.upsets_of_timeClass he⟩
  inner _ _ h := h
  array _ _ := .array
  map _ _ := .map
  noBranch := forall_mem_nil _
  branch h _ hs := forall_mem_cons.mpr ⟨h, hs⟩
  union h hu := by
    obtain ⟨rfl, -⟩ := yields_makeUnion.mp hu
    exact .union h
  leaf _ _ hs h := by
    obtain ⟨d, hd, -, hleaf, -, rfl, rfl⟩ := h
    exact ⟨hs.enter (Body.fields_eq_nil hleaf) hd.new, .named trivial⟩
  enter hs hd hb := ⟨hs.enter (by rw [hb]; rfl) hd.new, trivial⟩
  extend _ _ hs hf _ := ⟨hs.extend _ hf, trivial⟩
  complete _ _ _ _ _ _ _ := .named trivial
  declare _ ht _ hf := by
    obtain ⟨aliases, h, -⟩ := hf.aliases
    exact ⟨ht, h ▸ aliasesMember_array aliases⟩

/-- **Reading a type ends** with a type whose new fields are mild, with a refusal, or with one of
the faults that the document and the catalog have. -/
theorem ends_readSchema (hv : ∀ cause, v.Upsets cause → fault cause)
    (hs : ∀ cause, s₀.catalog.Upsets cause → fault cause) (space : Space) :
    Ends (fun _ s => s₀.Harmless fault s) (fun e _ => e.Refuses fault)
      (outcome (readSchema v space) s₀) :=
  have h : (refusing fault s₀).Runs s₀ _ (outcome (readSchema v space) s₀) :=
    ((refusing fault s₀).reads hv).type (Scope.Harmless.refl hs)
  ⟨fun _ _ => h.rel, h.error⟩

end Avroc
