import Avroc.Proofs.Schema.Occurrence
import Avroc.Proofs.Schema.Steady

/-!
# Reasoning about readers

Readers of types go through a document, and what is to be known of them is known part by part: of a
name, of a union whose branches have been read, of a record while it gets its fields.  An *account*
says what is claimed in each of these places, and that the claims fit together.  Then the claims
hold of every document, whether reading it succeeds or not.

* `Account.reads` : **an account holds of every value.**
* `lays_of_readSchema`, `lays_of_readField` : reading lays types, and fields pass their checks.
-/

namespace Avroc

open List

variable {α β : Type} {ms : Members} {t : Schema} {s s' s₀ s₁ : Scope} {d : Definition}
  {around space : Space} {name : String} {aliases items : List Json} {f : Field} {v : Json}
  {misuse : Misuse → Prop}

/-! ### Definitions -/

/-- The definition is read from the members, and its full name is new. -/
structure Defines (ms : Members) (around : Space) (s : Scope) (d : Definition) : Prop where
  name : Yields (readName ms around) s (d.name, d.space) s
  aliases : d.aliases.all isText = true
  props : d.props = ms.without typeAttributes
  new : s.registry.contains d.fullName = false

/-- What is read of a definition before its body, and then entered. -/
theorem defines_of_define {space : Option String} {body : Body} {id : TypeId}
    (hn : Yields (readName ms around) s (name, space) s) (ha : Yields (readAliases ms) s aliases s₁)
    (hd : Yields (define
      { name, space, doc := docOf ms, aliases, props := ms.without typeAttributes, body })
        s₁ id s') :
    ∃ d, Defines ms around s d ∧ d.space = space ∧ d.body = body ∧ id = ⟨s.catalog.size⟩ ∧
      s' = s.enter d := by
  obtain ⟨rfl, -, hall⟩ := yields_readAliases.mp ha
  obtain ⟨hnew, rfl, rfl⟩ := yields_define.mp hd
  exact ⟨_, ⟨hn, hall, rfl, hnew⟩, rfl, rfl, rfl, rfl⟩

/-- A definition without fields is read and entered. -/
def EntersLeaf (ms : Members) (around : Space) (s : Scope) (t : Schema) (s' : Scope) : Prop :=
  ∃ d, Defines ms around s d ∧ (s.registry.checksNames = true → d.body.Declarable) ∧
    (∀ isError fields, d.body ≠ .record isError fields) ∧
    (∀ size, d.body = .fixed size → 0 ≤ size) ∧ t = .named ⟨s.catalog.size⟩ ∧ s' = s.enter d

theorem entersLeaf_of_readEnum (h : Yields (readEnum ms around) s t s') :
    EntersLeaf ms around s t s' := by
  unfold readEnum at h
  rw [yields_bind] at h
  obtain ⟨⟨name, space⟩, s₁, hn, h⟩ := h
  obtain rfl := (steady_readName ms around).still.state_eq hn
  dsimp only at h
  split at h
  · simp only [yields_bind, yields_pure] at h
    obtain ⟨aliases, _, ha, symbols, _, hsym, default, _, hdef, id, _, hd, rfl, rfl⟩ := h
    obtain ⟨rfl, texts, -, rfl, hnd, -, hl⟩ := yields_checkSymbols.mp hsym
    obtain ⟨rfl, -, hmem⟩ := yields_checkEnumDefault.mp hdef
    obtain ⟨d, hdefines, -, hbody, rfl, rfl⟩ := defines_of_define hn ha hd
    obtain ⟨rfl, -⟩ := yields_readAliases.mp ha
    exact ⟨d, hdefines, fun hc => hbody ▸ ⟨hnd, hl hc, hmem⟩, by simp [hbody], by simp [hbody], rfl,
      rfl⟩
  · simp at h

theorem entersLeaf_of_readFixed (h : Yields (readFixed ms around) s t s') :
    EntersLeaf ms around s t s' := by
  unfold readFixed at h
  rw [yields_bind] at h
  obtain ⟨⟨name, space⟩, s₁, hn, h⟩ := h
  obtain rfl := (steady_readName ms around).still.state_eq hn
  dsimp only at h
  split at h
  · split at h
    · simp at h
    · rename_i hsize
      simp only [yields_bind, yields_pure] at h
      obtain ⟨aliases, _, ha, id, _, hd, rfl, rfl⟩ := h
      obtain ⟨d, hdefines, -, hbody, rfl, rfl⟩ := defines_of_define hn ha hd
      refine ⟨d, hdefines, fun _ => hbody ▸ Int.not_lt.mp hsize, by simp [hbody], ?_, rfl, rfl⟩
      simpa [hbody] using hsize
  · simp at h

/-- A field is checked between two states: its type has been read in between. -/
structure Field.Checked (s s' : Scope) (f : Field) : Prop where
  name : s.registry.checksNames = true → isLegalName f.name = true
  order : LegalOrder f.order
  aliases : ∃ texts, f.aliases = .array texts ∧ texts.all isText = true
  props : f.props.Avoids fieldAttributes
  default : s'.registry.checksDefaults = true → ∀ v ∈ f.default, v.fits s'.catalog f.type = true

/-! ### Steps that fail -/

/-- A failure of the step leaves the state; it is a refusal, or a value is of the wrong kind for one
of the reasons. -/
def Retreats {α : Type} (x : Reading α) (s : Scope) (misuse : Misuse → Prop := fun _ => False) :
    Prop :=
  Ends (fun _ _ => True) (fun e s' => s' = s ∧ e.Refuses misuse) (outcome x s)

theorem retreats_refuse (fault : Fault) : Retreats (refuse fault : Reading α) s misuse :=
  ends_throw ⟨rfl, .inl ⟨fault, none, none, rfl⟩⟩

theorem Steady.retreats {x : Reading α} (hx : Steady x misuse) (s : Scope) : Retreats x s misuse :=
  ⟨fun _ _ => trivial, fun e he => ⟨hx.state s, hx.refusal s e he⟩⟩

theorem Steady.retreats_bind {x : Reading α} {f : α → Reading β} (hx : Steady x misuse)
    (hf : ∀ a, Retreats (f a) s misuse) : Retreats (x >>= f) s misuse :=
  Ends.bind (Q := fun _ s₁ => s₁ = s) ⟨fun _ _ => hx.state s, (hx.retreats s).error⟩
    fun a _ hs₁ => hs₁ ▸ hf a

theorem retreats_define (d : Definition) (s : Scope) : Retreats (define d) s := by
  rw [Retreats, outcome_define]
  split
  · exact ends_throw ⟨rfl, .inl ⟨_, _, _, rfl⟩⟩
  · exact ends_pure trivial

theorem retreats_addField (id : TypeId) (f : Field) (s : Scope) : Retreats (addField id f) s := by
  rw [Retreats, outcome_addField]
  split
  · exact ends_throw ⟨rfl, .inl ⟨_, _, _, rfl⟩⟩
  · exact ends_pure trivial

theorem retreats_readEnum (ms : Members) (around : Space) (s : Scope) :
    Retreats (readEnum ms around) s := by
  refine (steady_readName ms around).retreats_bind fun _ => ?_
  dsimp only
  split
  · refine (steady_readAliases ms).retreats_bind fun _ => ?_
    refine (steady_checkSymbols [] _).retreats_bind fun symbols => ?_
    refine (steady_checkEnumDefault symbols _).retreats_bind fun _ => ?_
    exact (retreats_define _ s).bind fun _ _ _ => ends_pure trivial
  · exact retreats_refuse _

theorem retreats_readFixed (ms : Members) (around : Space) (s : Scope) :
    Retreats (readFixed ms around) s := by
  refine (steady_readName ms around).retreats_bind fun _ => ?_
  dsimp only
  split
  · split
    · exact retreats_refuse _
    · refine (steady_readAliases ms).retreats_bind fun _ => ?_
      exact (retreats_define _ s).bind fun _ _ _ => ends_pure trivial
  · exact retreats_refuse _

theorem retreats_makeUnion (ts : List Schema) (s : Scope) : Retreats (makeUnion ts) s := by
  suffices h : ∀ keys, Retreats (checkBranches keys ts) s from
    (h []).bind fun _ _ _ => ends_pure trivial
  induction ts with
  | nil => exact fun _ => ends_pure trivial
  | cons t ts ih =>
    intro keys
    rw [checkBranches]
    split
    · exact retreats_refuse _
    · rw [Retreats, outcome_get_bind]
      dsimp only
      split
      · exact retreats_refuse _
      · exact ih _

/-- A default that does not belong to its type is refused with the document of the type. -/
theorem ends_makeField (f : Field) (s : Scope) :
    Ends (fun g s' => s' = s ∧ g = f ∧
        (s.registry.checksDefaults = true → ∀ v ∈ f.default, v.fits s.catalog f.type = true))
      (fun e s' => s' = s ∧ ∃ v ∈ f.default, v.fits s.catalog f.type = false ∧
        ((∃ document, e = .parse (.badDefault f.name v document) none none) ∨
          ∃ cause, f.type.document s.catalog = .error cause ∧ e = .misuse cause))
      (outcome (makeField f) s) := by
  refine Ends.bind (Q := fun _ s' => s' = s ∧
    (s.registry.checksDefaults = true → ∀ v ∈ f.default, v.fits s.catalog f.type = true)) ?_
    fun _ _ h => ends_pure ⟨h.1, rfl, h.2⟩
  unfold checkDefault
  split
  · rename_i hnone
    exact ends_pure ⟨rfl, by simp [hnone]⟩
  · rename_i v hv
    rw [outcome_get_bind]
    split
    · have hfits : v.fits s.catalog f.type = false := by simp_all
      refine Ends.bind (Q := fun _ s' => s' = s) ?_ fun document _ hs =>
        ends_throw ⟨hs, v, hv, hfits, .inl ⟨document, rfl⟩⟩
      rw [documentNow, outcome_get_bind]
      cases hdoc : f.type.document s.catalog with
      | ok document => exact ends_pure rfl
      | error cause => exact ends_throw ⟨rfl, v, hv, hfits, .inr ⟨cause, rfl, rfl⟩⟩
    · exact ends_pure ⟨rfl, by simp_all⟩

theorem retreats_makeField (f : Field) (s : Scope) :
    Retreats (makeField f) s fun cause => f.type.document s.catalog = .error cause := by
  refine (ends_makeField f s).imp (fun _ _ _ => trivial) ?_
  rintro _ _ ⟨rfl, _, -, -, ⟨_, rfl⟩ | ⟨cause, hcause, rfl⟩⟩
  · exact ⟨rfl, .inl ⟨_, _, _, rfl⟩⟩
  · exact ⟨rfl, .inr ⟨cause, rfl, hcause⟩⟩

/-- A step that fails in the state where it began is still, if it succeeds there too. -/
theorem still_of_retreats {x : Reading α} {misuse : Scope → Misuse → Prop}
    (h : ∀ s, Retreats x s (misuse s)) (hy : ∀ s y s', Yields x s y s' → s' = s) : Still x := by
  intro s
  rcases hr : outcome x s with ⟨e | y, s'⟩
  · have he := h s
    rw [Retreats, hr] at he
    exact (he.error e rfl).1
  · exact hy s y s' hr

theorem still_makeUnion (ts : List Schema) : Still (makeUnion ts) :=
  still_of_retreats (fun s => (retreats_makeUnion ts s : Retreats _ s fun _ => False))
    fun _ _ _ h => (yields_checkBranches.mp (yields_makeUnion.mp h).2).1

theorem still_makeField (f : Field) : Still (makeField f) :=
  still_of_retreats (retreats_makeField f)
    fun _ _ _ h => (yields_checkDefault.mp (yields_makeField.mp h).2).1

/-! ### Accounts -/

/-- What is claimed of reading certain values: how the state changes, which errors there are, and
what a type, the branches of a union and a field are when they have been read between two states.
A record has been read as far as some items when it has been entered and has got their fields. -/
structure Account where
  value : Json → Prop
  rel : Scope → Scope → Prop
  error : Error → Prop
  type : Json → Space → Scope → Schema → Scope → Prop
  branches : List Json → Space → Scope → List Schema → Scope → Prop
  field : Json → Space → Scope → Field → Scope → Prop
  record : Definition → List Json → Scope → Scope → Prop
  item : ∀ {items}, value (.array items) → ∀ v ∈ items, value v
  member : ∀ {ms}, value (.object ms) → ∀ m ∈ ms, value m.2
  next : ∀ {s s'}, rel s s' → rel s' s'
  trans : ∀ {s s₁ s'}, rel s s₁ → rel s₁ s' → rel s s'
  refused : ∀ fault path line, error (.parse fault path line)
  order : ∀ {ms : Members} {v cause}, value (.object ms) → ms.get? "order" = some v →
    v.Unhashable cause → error (.misuse cause)
  document : ∀ {s cause} {t : Schema}, rel s s → t.document s.catalog = .error cause →
    error (.misuse cause)
  primitive : ∀ {n kind s space}, Primitive.ofName? n = some kind →
    type (.string n) space s (.plain kind) s
  reference : ∀ {n s id} {space : Space}, rel s s → Primitive.ofName? n = none →
    s.registry.resolve n space.text? = some id → type (.string n) space s (.named id) s
  attributed : ∀ {ms : Members} {n kind space s}, value (.object ms) →
    ms.get? "type" = some (.string n) → Primitive.ofName? n = some kind →
    type (.object ms) space s (.primitive kind (ms.without typeAttributes)) s
  inner : ∀ {ms : Members} {v space s t s'}, ms.get? "type" = some v →
    (∀ word ∈ kindWords, v ≠ .string word) → type v space s t s' → type (.object ms) space s t s'
  array : ∀ {ms : Members} {v space s t s'}, ms.get? "type" = some (.string "array") →
    ms.get? "items" = some v → type v space s t s' →
    type (.object ms) space s (.array t (ms.without typeAttributes)) s'
  map : ∀ {ms : Members} {v space s t s'}, ms.get? "type" = some (.string "map") →
    ms.get? "values" = some v → type v space s t s' →
    type (.object ms) space s (.map t (ms.without typeAttributes)) s'
  noBranch : ∀ {space s}, branches [] space s [] s
  branch : ∀ {v vs space s t s₁ ts s'}, type v space s t s₁ → rel s₁ s' →
    branches vs space s₁ ts s' → branches (v :: vs) space s (t :: ts) s'
  union : ∀ {vs space s ts t s'}, branches vs space s ts s' → Yields (makeUnion ts) s' t s' →
    type (.array vs) space s t s'
  leaf : ∀ {ms : Members} {word space s t s'}, ms.get? "type" = some (.string word) →
    word ∈ ["enum", "fixed"] → rel s s → EntersLeaf ms space s t s' →
    rel s s' ∧ type (.object ms) space s t s'
  enter : ∀ {ms space s d isError}, rel s s → Defines ms space s d → d.body = .record isError [] →
    rel s (s.enter d) ∧ record d [] s (s.enter d)
  extend : ∀ {d vs v s s₁ f s'}, rel s s₁ → record d vs s s₁ → rel s₁ s' →
    field v (.ofName d.space) s₁ f s' →
    (∀ g ∈ (s'.catalog.definition ⟨s.catalog.size⟩).body.fields, g.name ≠ f.name) →
    rel s (s'.extend ⟨s.catalog.size⟩ f) ∧ record d (vs ++ [v]) s (s'.extend ⟨s.catalog.size⟩ f)
  complete : ∀ {ms : Members} {word space s d isError vs s'},
    ms.get? "type" = some (.string word) → word ∈ ["record", "error"] → Defines ms space s d →
    d.body = .record isError [] → ms.get? "fields" = some (.array vs) → rel s s' →
    record d vs s s' → type (.object ms) space s (.named ⟨s.catalog.size⟩) s'
  declare : ∀ {ms : Members} {v space s f s'}, ms.get? "type" = some v →
    type v space s f.type s' → rel s s' → f.Checked s s' → field (.object ms) space s f s'

namespace Account

/-- What an account says of a run that has come from the state `s`. -/
structure Runs {α : Type} (a : Account) (s : Scope) (Q : α → Scope → Prop)
    (r : Except Error α × Scope) : Prop extends Leads a.rel s Q r where
  error : ∀ e, r.1 = .error e → a.error e

variable {a : Account}

section
variable {Q : α → Scope → Prop} {P : β → Scope → Prop} {x : Reading α} {f : α → Reading β}

theorem runs_pure {y : α} (h : a.rel s₀ s) (hy : Q y s) :
    a.Runs s₀ Q (outcome (pure y : Reading α) s) :=
  ⟨⟨h, fun _ hb => Except.ok.inj hb ▸ hy⟩, fun _ he => nomatch he⟩

theorem Runs.imp {P : α → Scope → Prop} {r : Except Error α × Scope} (h : a.Runs s P r)
    (hQ : ∀ y s', P y s' → Q y s') : a.Runs s Q r :=
  ⟨h.toLeads.imp fun y s' _ => hQ y s', h.error⟩

theorem Runs.bind (hx : a.Runs s₀ Q (outcome x s))
    (hf : ∀ y s₁, a.rel s₀ s₁ → Q y s₁ → a.Runs s₀ P (outcome (f y) s₁)) :
    a.Runs s₀ P (outcome (x >>= f) s) := by
  rw [outcome_bind]
  rcases hr : outcome x s with ⟨e | y, s₁⟩ <;> rw [hr] at hx
  · exact ⟨⟨hx.rel, fun _ hb => nomatch hb⟩, fun _ he => Except.error.inj he ▸ hx.error e rfl⟩
  · exact hf y s₁ hx.rel (hx.result y rfl)

/-- A run goes on from another state. -/
theorem Runs.from {r : Except Error α × Scope} (hr : a.Runs s Q r) (h : a.rel s₀ s) :
    a.Runs s₀ (fun y s' => a.rel s s' ∧ Q y s') r :=
  ⟨⟨a.trans h hr.rel, fun y hy => ⟨hr.rel, hr.result y hy⟩⟩, hr.error⟩

/-- A step that leaves the state where it fails comes first. -/
theorem runs_bind (hx : Retreats x s misuse) (h : a.rel s₀ s)
    (hE : ∀ cause, misuse cause → a.error (.misuse cause))
    (hf : ∀ y s₁, Yields x s y s₁ → a.Runs s₀ P (outcome (f y) s₁)) :
    a.Runs s₀ P (outcome (x >>= f) s) := by
  rw [outcome_bind]
  rcases hr : outcome x s with ⟨e | y, s₁⟩
  · rw [Retreats, hr] at hx
    obtain ⟨rfl, he⟩ := hx.error e rfl
    refine ⟨⟨h, fun _ hb => nomatch hb⟩, fun _ h => Except.error.inj h ▸ ?_⟩
    obtain ⟨fault, path, line, rfl⟩ | ⟨cause, rfl, hcause⟩ := he
    · exact a.refused fault path line
    · exact hE cause hcause
  · exact hf y s₁ hr

theorem runs_step (hx : Retreats x s misuse) (h : a.rel s₀ s)
    (hE : ∀ cause, misuse cause → a.error (.misuse cause))
    (hQ : ∀ y s₁, Yields x s y s₁ → a.rel s₀ s₁ ∧ Q y s₁) : a.Runs s₀ Q (outcome x s) := by
  rw [← bind_pure x]
  exact runs_bind hx h hE fun y s₁ hy => runs_pure (hQ y s₁ hy).1 (hQ y s₁ hy).2

/-- A steady step comes first. -/
theorem runs_steady (hx : Steady x) (h : a.rel s₀ s)
    (hf : ∀ y, Yields x s y s → a.Runs s₀ P (outcome (f y) s)) :
    a.Runs s₀ P (outcome (x >>= f) s) := by
  refine runs_bind (hx.retreats s) h (fun _ => False.elim) fun y s₁ hy => ?_
  obtain rfl := hx.still.state_eq hy
  exact hf y hy

theorem runs_refuse (h : a.rel s s) (fault : Fault) :
    a.Runs s Q (outcome (refuse fault : Reading α) s) :=
  ⟨⟨h, fun _ hy => nomatch hy⟩, fun _ he => Except.error.inj he ▸ a.refused fault none none⟩

end

/-! ### Readers -/

/-- The account holds of the reader of a type. -/
def Types (a : Account) (v : Json) (read : TypeReader) : Prop :=
  ∀ {s : Scope} {space : Space}, a.rel s s → a.Runs s (a.type v space s) (outcome (read space) s)

/-- The account holds of the reader of a field. -/
def Fields (a : Account) (v : Json) (read : FieldReader) : Prop :=
  ∀ {s : Scope} {space : Space}, a.rel s s → a.Runs s (a.field v space s) (outcome (read space) s)

theorem types_resolveType (name : String) : a.Types (.string name) (resolveType name) := by
  intro s space h
  unfold resolveType
  split
  · exact runs_pure h (a.primitive ‹_›)
  · rw [outcome_get_bind]
    split
    · exact runs_pure h (a.reference h ‹_› ‹_›)
    · exact runs_refuse h _

/-- The fields of a record are read after those that it has. -/
theorem runs_readFields (hitems : ∀ v ∈ items, a.Fields v (readField v)) {vs : List Json}
    (h : a.rel s s₁) (hd : a.record d vs s s₁) :
    a.Runs s (fun _ s' => a.record d (vs ++ items) s s')
      (outcome (readFields ⟨s.catalog.size⟩ (.ofName d.space) (itemFields items)) s₁) := by
  induction items generalizing vs s₁ with
  | nil => exact runs_pure h (by rwa [append_nil])
  | cons v items ih =>
    obtain ⟨hv, hitems⟩ := forall_mem_cons.mp hitems
    refine ((hv (a.next h)).from h).bind fun f s₂ h₂ ⟨h₁₂, hf⟩ => ?_
    refine runs_bind (retreats_addField _ f s₂) h₂ (fun _ => False.elim) fun _ s₃ hy => ?_
    obtain ⟨hnew, rfl⟩ := yields_addField.mp hy
    obtain ⟨h₃, hd⟩ := a.extend h hd h₁₂ hf hnew
    rw [← singleton_append, ← append_assoc]
    exact ih hitems h₃ hd

section
variable (htypes : ∀ key v, ms.get? key = some v → a.Types v (readSchema v))
  (hitems : ∀ items, ms.get? "fields" = some (.array items) → ∀ v ∈ items, a.Fields v (readField v))
include hitems

theorem types_readRecord {word : String} (isError : Bool)
    (ht : ms.get? "type" = some (.string word)) (hword : word ∈ ["record", "error"]) :
    a.Types (.object ms)
      (readRecord isError ms (((memberFields ms).lookup "fields").getD [])) := by
  intro s around h
  refine runs_steady (steady_readName ms around) h fun ⟨name, space⟩ hn => ?_
  dsimp only
  split
  · rename_i items hl
    refine runs_steady (steady_readAliases ms) h fun aliases ha => ?_
    refine runs_bind (retreats_define _ s) h (fun _ => False.elim) fun id s₁ hy => ?_
    obtain ⟨d, hd, rfl, hbody, rfl, rfl⟩ := defines_of_define hn ha hy
    obtain ⟨h₁, hrecord⟩ := a.enter h hd hbody
    rw [lookup_memberFields, hl]
    refine (runs_readFields (hitems items hl) h₁ hrecord).bind fun _ s₂ h₂ hd₂ => ?_
    exact runs_pure h₂ (a.complete ht hword hd hbody hl h₂ hd₂)
  · exact runs_refuse h _

include htypes

omit hitems in
theorem fields_readFieldWith (hv : a.value (.object ms)) :
    a.Fields (.object ms) (readFieldWith ms (memberTypes ms)) := by
  intro s space h
  unfold readFieldWith
  rw [lookup_memberTypes]
  split
  · rename_i name _
    refine runs_steady (steady_checkName name) h fun _ hname => ?_
    split
    · exact runs_refuse h _
    · rename_i read hread
      obtain ⟨v, hget, rfl⟩ := Option.map_eq_some_iff.mp hread
      refine runs_bind ((steady_checkOrder name _).retreats s) h (fun cause hcause => ?_)
        fun _ s₁ horder => ?_
      · cases ho : ms.get? "order" with
        | none =>
          rw [ho] at hcause
          rcases hcause.1 with ⟨_, he⟩ | ⟨_, he⟩ <;> cases he
        | some order =>
          rw [ho] at hcause
          exact a.order hv ho hcause
      obtain ⟨rfl, hlegal⟩ := yields_checkOrder.mp horder
      refine (htypes _ v hget h).bind fun type s₁ h₁ ht => ?_
      refine runs_steady (steady_readAliases ms) h₁ fun aliases ha => ?_
      refine runs_step (retreats_makeField _ s₁) h₁ (fun _ => a.document (a.next h₁))
        fun f s₂ hf => ?_
      obtain ⟨rfl, hdefault⟩ := yields_makeField.mp hf
      obtain ⟨rfl, hfits⟩ := yields_checkDefault.mp hdefault
      exact ⟨h₁, a.declare hget ht h₁ ⟨(yields_checkName.mp hname).2, hlegal,
        ⟨aliases, rfl, (yields_readAliases.mp ha).2.2⟩, ms.avoids_without _,
        fun hc v hv => hfits v hv hc⟩⟩
  · exact runs_refuse h _

theorem types_readObject (hv : a.value (.object ms)) :
    a.Types (.object ms) (readObject ms (memberTypes ms) (memberFields ms)) := by
  intro s space h
  have hinner {v : Json} (hget : ms.get? "type" = some v)
      (hv : ∀ word ∈ kindWords, v ≠ .string word) :
      a.Runs s (a.type (.object ms) space s) (outcome (readSchema v space) s) :=
    (htypes _ v hget h).imp fun _ _ => a.inner hget hv
  unfold readObject
  simp only [lookup_memberTypes]
  cases ht : ms.get? "type" with
  | none => exact runs_refuse h _
  | some v =>
    cases v with
    | object | array => exact hinner ht (by simp)
    | null | bool | int | real => exact runs_refuse h _
    | string word =>
      dsimp only
      split
      · exact runs_pure h (a.attributed hv ht ‹_›)
      split
      · exact types_readRecord hitems false ht (by decide) h
      · exact types_readRecord hitems true ht (by decide) h
      · exact runs_step (retreats_readEnum ms space s) h (fun _ => False.elim) fun _ _ hy =>
          a.leaf ht (by decide) h (entersLeaf_of_readEnum hy)
      · exact runs_step (retreats_readFixed ms space s) h (fun _ => False.elim) fun _ _ hy =>
          a.leaf ht (by decide) h (entersLeaf_of_readFixed hy)
      · cases hget : ms.get? "items" with
        | none => exact runs_refuse h _
        | some v =>
          exact (htypes _ v hget h).bind fun _ _ h₁ hv => runs_pure h₁ (a.array ht hget hv)
      · cases hget : ms.get? "values" with
        | none => exact runs_refuse h _
        | some v => exact (htypes _ v hget h).bind fun _ _ h₁ hv => runs_pure h₁ (a.map ht hget hv)
      · exact hinner ht (by simp_all [kindWords])

end

/-- The account holds of the value in each of the three places where it may stand: as a type, as the
list of the fields of a record and as a field. -/
structure Reads (a : Account) (v : Json) : Prop where
  type : a.Types v (readSchema v)
  items : ∀ items, v = .array items → ∀ w ∈ items, a.Fields w (readField w)
  field : a.Fields v (readField v)

theorem runs_readBranches (hitems : ∀ v ∈ items, a.Reads v) (h : a.rel s s) :
    a.Runs s (a.branches items space s) (outcome (readBranches items space) s) := by
  induction items generalizing s with
  | nil => exact runs_pure h a.noBranch
  | cons v items ih =>
    obtain ⟨hv, hitems⟩ := forall_mem_cons.mp hitems
    refine (hv.type h).bind fun t s₁ h₁ ht => ?_
    refine ((ih hitems (a.next h₁)).from h₁).bind fun ts s₂ h₂ ⟨h₁₂, hts⟩ => ?_
    exact runs_pure h₂ (a.branch ht h₁₂ hts)

/-- **An account holds of every value.** -/
theorem reads (a : Account) (hv : a.value v) : a.Reads v := by
  induction v using Json.nestedInduction with
  | null | bool | int | real =>
    exact ⟨fun h => runs_refuse h _, fun _ he => (by cases he), fun h => runs_refuse h _⟩
  | string name =>
    exact ⟨types_resolveType name, fun _ he => (by cases he), fun h => runs_refuse h _⟩
  | array items ih =>
    have hitems : ∀ v ∈ items, a.Reads v := fun v hm => ih v hm (a.item hv v hm)
    refine ⟨fun h => ?_, fun l hl w hw => ?_, fun h => runs_refuse h _⟩
    · refine (runs_readBranches hitems h).bind fun ts s₁ h₁ hts => ?_
      refine runs_step (retreats_makeUnion ts s₁) h₁ (fun _ => False.elim) fun t s₂ hy => ?_
      obtain rfl := (still_makeUnion ts).state_eq hy
      exact ⟨h₁, a.union hts hy⟩
    · cases hl
      exact (hitems w hw).field
  | object ms ih =>
    have hmembers : ∀ key v, Members.get? ms key = some v → a.Reads v := fun key v hget =>
      ih _ (Members.mem_of_get? hget) (a.member hv _ (Members.mem_of_get? hget))
    have htypes : ∀ key v, Members.get? ms key = some v → a.Types v (readSchema v) :=
      fun key v hget => (hmembers key v hget).type
    exact ⟨types_readObject htypes (fun items hget => (hmembers _ _ hget).items items rfl) hv,
      fun _ he => (by cases he), fields_readFieldWith htypes hv⟩

end Account

/-! ### Reading lays -/

theorem Defines.declarable (h : Defines ms around s d) (hs : s.Sound) (hb : d.body.Declarable) :
    d.Declarable := by
  obtain ⟨hname, hspace⟩ := named_of_readName h.name hs.checksNames
  exact ⟨hname, hspace, h.aliases, h.props ▸ ms.avoids_without typeAttributes, hb⟩

/-- A name leads to a type that is known. -/
theorem lays_of_resolve {id : TypeId} (hs : s.Sound) (hprim : Primitive.ofName? name = none)
    (hid : s.registry.resolve name space.text? = some id) : Lays s (.type (.named id)) s := by
  -- the full name that led to the type is the written name or has a dot
  obtain ⟨full, hget, hfull⟩ := Registry.get?_of_resolve hid
  obtain ⟨-, rfl⟩ := hs.get? full id hget
  refine .known hget ?_
  rcases hfull with hfull | ⟨_, -, -, hfull⟩
  · rw [hfull, hprim]
  · exact Primitive.ofName?_of_dot_mem (by simp [hfull])

/-- What reading a document lays. -/
def laying : Account where
  value _ := True
  rel _ s' := s'.Sound
  error _ := True
  type _ _ s t s' := Lays s (.type t) s'
  branches _ _ s ts s' := Lays s (.branches ts) s'
  field _ _ s f s' := Lays s (.type f.type) s' ∧ f.Declarable s'.catalog
  record d _ s s₁ := d.Declarable ∧ ∀ fs s', Lays s₁ (.fields ⟨s.catalog.size⟩ fs) s' →
    ∃ gs, Lays (s.enter d) (.fields ⟨s.catalog.size⟩ gs) s'
  item _ _ _ := trivial
  member _ _ _ := trivial
  next h := h
  trans _ h := h
  refused _ _ _ := trivial
  order _ _ _ := trivial
  document _ _ := trivial
  primitive _ := .primitive fun _ hm => absurd hm not_mem_nil
  reference := lays_of_resolve
  attributed _ _ _ := .primitive (Members.avoids_without _ typeAttributes)
  inner _ _ h := h
  array _ _ := .array (Members.avoids_without _ typeAttributes)
  map _ _ := .map (Members.avoids_without _ typeAttributes)
  noBranch := .noBranch
  branch h _ := .branch h
  union h hu := by
    obtain ⟨rfl, hb⟩ := yields_makeUnion.mp hu
    exact .union h hb
  leaf _ _ hs h := by
    obtain ⟨d, hd, hb, hleaf, -, rfl, rfl⟩ := h
    have hlays := Lays.leaf (hd.declarable hs (hb hs.checksNames)) hd.new hleaf
    exact ⟨(hlays.sound hs).1, hlays⟩
  enter hs hd hb := by
    have hdecl := hd.declarable hs (by rw [hb]; rfl)
    exact ⟨hs.enter hd.new (by rw [hb]; rfl) hdecl.space_ne_empty, hdecl, fun fs _ h => ⟨fs, h⟩⟩
  extend hs hd hs' hf hnew :=
    ⟨hs'.extend _ (hf.1.sound hs).2, hd.1, fun _ _ h => hd.2 _ _ (.field hf.1 hf.2 hnew h)⟩
  complete _ _ hd hb _ _ h := by
    obtain ⟨fs, hfs⟩ := h.2 [] _ .noField
    exact .record h.1 hd.new hb hfs
  declare _ h hs' hf :=
    ⟨h, hf.name (h.grows.checksNames ▸ hs'.checksNames), hf.order, hf.aliases, hf.props,
      hf.default hs'.checksDefaults⟩

/-- **Reading a type lays it.** -/
theorem lays_of_readSchema (hs : s.Sound) (h : Yields (readSchema v space) s t s') :
    Lays s (.type t) s' :=
  (((laying.reads trivial).type hs).toLeads.of_yields h).2

/-- **Reading a field lays its type**, and the field passes its checks afterwards. -/
theorem lays_of_readField (hs : s.Sound) (h : Yields (readField v space) s f s') :
    Lays s (.type f.type) s' ∧ f.Declarable s'.catalog :=
  (((laying.reads trivial).field hs).toLeads.of_yields h).2

end Avroc
