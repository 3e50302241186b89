import Avroc.Proofs.Schema.Parallel

/-!
# Documents read side by side

The readers of documents, one after the other, in two states that are tied.

* `Comparison.Tied.paired_readSchema` : **every document is read side by side.**
-/

namespace Avroc

open List

variable {ρ : Matching} {ms : Members} {s s' : Scope} {around space : Space} {items : List Json}

namespace Comparison

variable {k : Comparison} {ρ : Matching} {s s' : Scope}

/-! ### Objects -/

section
variable (h : k.Tied ρ s s')
  (ho : ∀ name space, definedName? ms around = some (name, space) → k.own (joinName name space))
include h ho

theorem Tied.paired_readEnum :
    k.Paired ρ Schema.Alike (outcome (readEnum ms around) s) (outcome (readEnum ms around) s') := by
  unfold readEnum
  refine h.paired_steady (steady_readName ms around) fun ⟨name, space⟩ hn => ?_
  dsimp only
  split
  · refine h.paired_steady (steady_readAliases ms) fun aliases _ => ?_
    refine h.paired_steady (steady_checkSymbols [] _) fun symbols _ => ?_
    refine h.paired_steady (steady_checkEnumDefault symbols _) fun default _ => ?_
    refine Paired.bind (h.paired_define ?_ rfl ?_) fun σ a b t t' _ ht hab => ?_
    · exact ho name space (definedName?_of_readName hn)
    · exact named_of_readName hn
    · exact ht.paired_pure ⟨b, rfl, hab.1⟩
  · exact h.paired_refuse _

theorem Tied.paired_readFixed :
    k.Paired ρ Schema.Alike (outcome (readFixed ms around) s)
      (outcome (readFixed ms around) s') := by
  unfold readFixed
  refine h.paired_steady (steady_readName ms around) fun ⟨name, space⟩ hn => ?_
  dsimp only
  split
  · split
    · exact h.paired_refuse _
    · refine h.paired_steady (steady_readAliases ms) fun aliases _ => ?_
      refine Paired.bind (h.paired_define ?_ rfl ?_) fun σ a b t t' _ ht hab => ?_
      · exact ho name space (definedName?_of_readName hn)
      · exact named_of_readName hn
      · exact ht.paired_pure ⟨b, rfl, hab.1⟩
  · exact h.paired_refuse _

end

theorem Tied.paired_readRecord (h : k.Tied ρ s s') {isError : Bool} {reads : List FieldReader}
    (ho : ∀ name space, definedName? ms around = some (name, space) →
      k.own (joinName name space))
    (hreads : ∀ items name space, ms.get? "fields" = some (.array items) →
      definedName? ms around = some (name, space) → ∀ σ t t' id id', k.Tied σ t t' → σ id id' →
      k.first.catalog.size ≤ id.index →
      k.Paired σ (fun _ _ _ => True) (outcome (readFields id (.ofName space) reads) t)
        (outcome (readFields id' (.ofName space) reads) t')) :
    k.Paired ρ Schema.Alike (outcome (readRecord isError ms reads around) s)
      (outcome (readRecord isError ms reads around) s') := by
  unfold readRecord
  refine h.paired_steady (steady_readName ms around) fun ⟨name, space⟩ hn => ?_
  have hname := definedName?_of_readName hn
  dsimp only
  split
  · rename_i items hitems
    refine h.paired_steady (steady_readAliases ms) fun aliases _ => ?_
    refine Paired.bind (h.paired_define ?_ rfl ?_) fun σ id id' t t' _ ht hid => ?_
    · exact ho name space hname
    · exact named_of_readName hn
    · refine (hreads items name space hitems hname σ t t' id id' ht hid.1 hid.2).bind
        fun τ _ _ u u' hστ hu _ => ?_
      exact hu.paired_pure ⟨id', rfl, hστ id id' hid.1⟩
  · exact h.paired_refuse _

theorem Tied.paired_readFieldWith (h : k.Tied ρ s s') {types : List (String × TypeReader)}
    (hread : ∀ read, types.lookup "type" = some read → ∀ σ t t', k.Tied σ t t' →
      k.Paired σ Schema.Alike (outcome (read space) t) (outcome (read space) t')) :
    k.Paired ρ Field.Alike (outcome (readFieldWith ms types space) s)
      (outcome (readFieldWith ms types space) s') := by
  unfold readFieldWith
  split
  · rename_i name _
    refine h.paired_steady (steady_checkName name) fun _ _ => ?_
    split
    · exact h.paired_refuse _
    · rename_i read hlookup
      refine h.paired_steady (steady_checkOrder name _) fun _ _ => ?_
      refine (hread read hlookup ρ s s' h).bind fun σ type type' t t' _ ht htype => ?_
      refine ht.paired_steady (steady_readAliases ms) fun aliases _ => ?_
      exact ht.paired_makeField ⟨rfl, htype, rfl, rfl, rfl, rfl, rfl⟩
  · exact h.paired_refuse _

/-! ### Values -/

/-- The value is read side by side in each of the three places where it may stand: as a type, as
the list of the fields of a record and as a field. -/
structure Parallel (k : Comparison) (v : Json) : Prop where
  type : ∀ {space : Space} {ρ : Matching} {s s' : Scope}, (∀ o, Occurs v space o → k.Fine o) →
    k.Tied ρ s s' →
    k.Paired ρ Schema.Alike (outcome (readSchema v space) s) (outcome (readSchema v space) s')
  fields : ∀ {space : Space} {ρ : Matching} {s s' : Scope} {id id' : TypeId},
    (∀ items (field : Members) w o, v = .array items → .object field ∈ items →
      field.get? "type" = some w → Occurs w space o → k.Fine o) →
    k.Tied ρ s s' → ρ id id' → k.first.catalog.size ≤ id.index →
    k.Paired ρ (fun _ _ _ => True) (outcome (readFields id space (fieldList v)) s)
      (outcome (readFields id' space (fieldList v)) s')
  field : ∀ {space : Space} {ρ : Matching} {s s' : Scope},
    (∀ (field : Members) w o, v = .object field → field.get? "type" = some w →
      Occurs w space o → k.Fine o) →
    k.Tied ρ s s' →
    k.Paired ρ Field.Alike (outcome (readField v space) s) (outcome (readField v space) s')

theorem paired_readBranches (ih : ∀ v ∈ items, k.Parallel v)
    (hfine : ∀ v ∈ items, ∀ o, Occurs v space o → k.Fine o) (h : k.Tied ρ s s') :
    k.Paired ρ (fun σ => List.Forall₂ (Schema.Alike σ)) (outcome (readBranches items space) s)
      (outcome (readBranches items space) s') := by
  induction items generalizing ρ s s' with
  | nil => exact h.paired_pure .nil
  | cons v items ihs =>
    rw [forall_mem_cons] at ih hfine
    rw [readBranches]
    refine (ih.1.type hfine.1 h).bind fun σ t u s₁ s₁' _ h₁ htu => ?_
    refine (ihs ih.2 hfine.2 h₁).bind fun τ ts us s₂ s₂' hστ h₂ htus => ?_
    exact h₂.paired_pure (.cons (htu.mono hστ) htus)

theorem paired_readFields (ih : ∀ v ∈ items, k.Parallel v)
    (hfine : ∀ (field : Members) w o, .object field ∈ items → field.get? "type" = some w →
      Occurs w space o → k.Fine o) {id id' : TypeId} (h : k.Tied ρ s s') (hid : ρ id id')
    (hnew : k.first.catalog.size ≤ id.index) :
    k.Paired ρ (fun _ _ _ => True) (outcome (readFields id space (itemFields items)) s)
      (outcome (readFields id' space (itemFields items)) s') := by
  induction items generalizing ρ s s' with
  | nil => exact h.paired_pure trivial
  | cons v items ihs =>
    rw [forall_mem_cons] at ih
    rw [itemFields, readFields, readFields]
    have hv : ∀ (field : Members) w o, v = .object field → field.get? "type" = some w →
        Occurs w space o → k.Fine o := fun field w o hf => hfine field w o (hf ▸ mem_cons_self)
    refine (ih.1.field hv h).bind fun σ f g s₁ s₁' hσ h₁ hfg => ?_
    refine (h₁.paired_addField (hσ id id' hid) hnew hfg).bind fun τ _ _ s₂ s₂' hτ h₂ _ => ?_
    exact ihs ih.2 (fun field w o hf => hfine field w o (mem_cons_of_mem _ hf)) h₂
      (hτ id id' (hσ id id' hid))

theorem paired_readObject {members : Members} (ih : ∀ m ∈ members, k.Parallel m.2)
    (hfine : ∀ o, Occurs (.object members) space o → k.Fine o) (h : k.Tied ρ s s') :
    k.Paired ρ Schema.Alike (outcome (readSchema (.object members) space) s)
      (outcome (readSchema (.object members) space) s') := by
  have hown : ∀ word, members.get? "type" = some (.string word) →
      word ∈ ["record", "error", "enum", "fixed"] → ∀ name inside,
      definedName? members space = some (name, inside) → k.own (joinName name inside) :=
    fun word ht hw name inside hn => hfine _ (.definition ht hw hn)
  have hrecord : ∀ isError word, members.get? "type" = some (.string word) →
      word ∈ ["record", "error"] → k.Paired ρ Schema.Alike
        (outcome (readRecord isError members (((memberFields members).lookup "fields").getD [])
          space) s)
        (outcome (readRecord isError members (((memberFields members).lookup "fields").getD [])
          space) s') := by
    intro isError word ht hw
    refine h.paired_readRecord (hown word ht (mem_append_left ["enum", "fixed"] hw)) ?_
    intro items name inside hitems hn σ t t' id id' htied hid hnew
    rw [lookup_memberFields, hitems]
    refine (ih _ (Members.mem_of_get? hitems)).fields ?_ htied hid hnew
    rintro _ field w o ⟨⟩ hfield hw' hocc
    exact hfine o (.field ht hw hn hitems hfield hw' hocc)
  rw [readSchema, readObject, lookup_memberTypes]
  cases ht : members.get? "type" with
  | none => exact h.paired_refuse _
  | some v =>
    have hinner : (∀ word ∈ kindWords, v ≠ .string word) → k.Paired ρ Schema.Alike
        (outcome (readSchema v space) s) (outcome (readSchema v space) s') := fun hv =>
      (ih _ (Members.mem_of_get? ht)).type (fun o hocc => hfine o (.type ht hv hocc)) h
    cases v with
    | object inner => exact hinner (by simp)
    | array items => exact hinner (by simp)
    | null => exact h.paired_refuse _
    | bool b => exact h.paired_refuse _
    | int n => exact h.paired_refuse _
    | real x => exact h.paired_refuse _
    | string word =>
      dsimp only
      split
      · exact h.paired_pure ⟨_, rfl, rfl⟩
      · rename_i hprim
        split
        · exact hrecord false "record" ht (by simp)
        · exact hrecord true "error" ht (by simp)
        · exact h.paired_readEnum (hown "enum" ht (by simp))
        · exact h.paired_readFixed (hown "fixed" ht (by simp))
        · rw [lookup_memberTypes]
          cases hi : members.get? "items" with
          | none => exact h.paired_refuse _
          | some w =>
            refine ((ih _ (Members.mem_of_get? hi)).type
              (fun o hocc => hfine o (.items ht hi hocc)) h).bind fun σ a b t t' _ htied hab => ?_
            exact htied.paired_pure ⟨b, _, rfl, hab, rfl⟩
        · rw [lookup_memberTypes]
          cases hi : members.get? "values" with
          | none => exact h.paired_refuse _
          | some w =>
            refine ((ih _ (Members.mem_of_get? hi)).type
              (fun o hocc => hfine o (.values ht hi hocc)) h).bind fun σ a b t t' _ htied hab => ?_
            exact htied.paired_pure ⟨b, _, rfl, hab, rfl⟩
        · refine h.paired_resolveType fun _ => hfine _ (.type ht ?_ (.name hprim))
          simp_all [kindWords]

theorem parallel (k : Comparison) (v : Json) : k.Parallel v := by
  induction v using Json.nestedInduction with
  | null | bool b | int n | real x =>
    exact ⟨fun _ h => h.paired_refuse _, fun _ h _ _ => h.paired_pure trivial,
      fun _ h => h.paired_refuse _⟩
  | string name =>
    exact ⟨fun hfine h => h.paired_resolveType fun hp => hfine _ (.name hp),
      fun _ h _ _ => h.paired_pure trivial, fun _ h => h.paired_refuse _⟩
  | array items ih =>
    refine ⟨fun hfine h => ?_, fun hfine h hid hnew => ?_, fun _ h => h.paired_refuse _⟩
    · rw [readSchema]
      refine (paired_readBranches ih (fun v hv o ho => hfine o (.branch hv ho)) h).bind
        fun σ ts us t t' _ htied htus => ?_
      exact htied.paired_makeUnion htus
    · exact paired_readFields ih (fun field w o => hfine items field w o rfl) h hid hnew
  | object members ih =>
    refine ⟨fun hfine h => paired_readObject ih hfine h, fun _ h _ _ => h.paired_pure trivial,
      fun hfine h => ?_⟩
    refine h.paired_readFieldWith fun read hread σ t t' htied => ?_
    rw [lookup_memberTypes, Option.map_eq_some_iff] at hread
    obtain ⟨w, hw, rfl⟩ := hread
    exact (ih _ (Members.mem_of_get? hw)).type (fun o ho => hfine members w o rfl hw ho) htied

/-- **Every document is read side by side**, if its definitions and references are fine. -/
theorem Tied.paired_readSchema (h : k.Tied ρ s s') {v : Json}
    (hfine : ∀ o, Occurs v space o → k.Fine o) :
    k.Paired ρ Schema.Alike (outcome (readSchema v space) s) (outcome (readSchema v space) s') :=
  (k.parallel v).type hfine h

end Comparison

end Avroc
