import Avroc.Proofs.Schema.Document
import Avroc.Proofs.Schema.Read
import Avroc.Proofs.Schema.Tidy

/-!
# Documents read again

A piece that has been laid between two states is written into a document, and reading the document
lays the same piece again, between the tidy forms of the two states.  The writer cuts the graph of
definitions at the names that it has written, the reader resolves names that it has defined, and
both go through a piece in the order in which it was laid: so the names written so far are at every
point the names in the registry.

* `Lays.rereads` : **what has been laid can be written down and read again.**
-/

namespace Avroc

open List

variable {c : Catalog} {d : Definition} {ns ns' : List String} {props : Members} {t : Schema}
  {s s' s₁ : Scope} {space : Space} {α : Type} {a : α} {ts : List Schema} {f : Field}
  {fs : List Field} {v order type : Json} {m : String × Json} {key : String} {depth : Nat}

/-! ### Writing -/

/-- The step `x` of writing a document, after the names `ns`, succeeds with `a` and leaves the
names `ns'`. -/
def Writes {α : Type} (x : Documenting α) (ns : List String) (a : α) (ns' : List String) : Prop :=
  x.run ns = .ok (a, ns')

section
variable {β : Type} {ns ns' : List String} {b : α}

@[simp] theorem writes_pure : Writes (pure a) ns b ns' ↔ b = a ∧ ns' = ns := by
  show (Except.ok (a, ns) : Except Misuse (α × List String)) = .ok (b, ns') ↔ _
  simp [eq_comm]

@[simp] theorem writes_bind {x : Documenting α} {f : α → Documenting β} {b : β} :
    Writes (x >>= f) ns b ns' ↔ ∃ a ns₁, Writes x ns a ns₁ ∧ Writes (f a) ns₁ b ns' := by
  unfold Writes
  rw [StateT.run_bind]
  cases x.run ns with
  | error e =>
    constructor
    · intro h
      cases h
    · rintro ⟨_, _, h, -⟩
      cases h
  | ok r =>
    constructor
    · intro h
      exact ⟨r.1, r.2, rfl, h⟩
    · rintro ⟨_, _, h, h'⟩
      cases h
      exact h'

protected theorem Writes.pure : Writes (pure a) ns a ns :=
  rfl

protected theorem Writes.bind {x : Documenting α} {f : α → Documenting β}
    {ns₁ : List String} {b : β}
    (h : Writes x ns a ns₁) (h' : Writes (f a) ns₁ b ns') : Writes (x >>= f) ns b ns' :=
  writes_bind.mpr ⟨a, ns₁, h, h'⟩

@[simp] theorem writes_lift {x : Except Misuse α} :
    Writes (liftM x : Documenting α) ns a ns' ↔ x = .ok a ∧ ns' = ns := by
  unfold Writes
  cases x with
  | error e =>
    constructor
    · intro h
      cases h
    · rintro ⟨h, -⟩
      cases h
  | ok b =>
    show (Except.ok (b, ns) : Except Misuse (α × List String)) = .ok (a, ns') ↔ _
    simp [eq_comm]

end

/-- What is written is the result of writing. -/
theorem Writes.run' {x : Documenting α} (h : Writes x ns a ns') :
    x.run' ns = .ok a := by
  rw [StateT.run'_eq, show x.run ns = _ from h]
  rfl

/-! ### The catalog behind a document -/

/-- The catalog knows all names of the second state, and holds the definitions between the two
states as they are in the second. -/
structure Catalog.Covers (c : Catalog) (s s' : Scope) : Prop where
  size : s'.catalog.size ≤ c.size
  fullName : ∀ id, id.index < s'.catalog.size → c.fullName id = s'.catalog.fullName id
  definition : ∀ id, s.catalog.size ≤ id.index → id.index < s'.catalog.size →
    c.definition id = s'.catalog.definition id

theorem Catalog.Covers.left (h : c.Covers s s') (hg : s₁.Grows s')
    (hd : ∀ id, s.catalog.size ≤ id.index → id.index < s₁.catalog.size →
      s'.catalog.definition id = s₁.catalog.definition id) : c.Covers s s₁ where
  size := Nat.le_trans hg.size h.size
  fullName id hid := (h.fullName id (Nat.lt_of_lt_of_le hid hg.size)).trans (hg.fullName id hid)
  definition id hle hid :=
    (h.definition id hle (Nat.lt_of_lt_of_le hid hg.size)).trans (hd id hle hid)

theorem Catalog.Covers.right (h : c.Covers s s') (hle : s.catalog.size ≤ s₁.catalog.size) :
    c.Covers s₁ s' where
  size := h.size
  fullName := h.fullName
  definition id hid := h.definition id (Nat.le_trans hle hid)

/-- A catalog that covers a union covers its first branch. -/
theorem Catalog.Covers.branch (hc : c.Covers s s') (h : Lays s₁ (.branches ts) s') :
    c.Covers s s₁ :=
  hc.left h.grows fun _ _ hid => h.definition_eq hid trivial

/-- A catalog that covers the fields of a record covers the type of the first: the record under
construction is older than what its fields bring. -/
theorem Catalog.Covers.field {id : TypeId} (hc : c.Covers s s') (hid : id.index < s.catalog.size)
    (h : Lays (s₁.extend id f) (.fields id fs) s') :
    c.Covers s s₁ := by
  refine hc.left ((Scope.grows_extend s₁ id f).trans h.grows) fun other hother hlt => ?_
  have hne : other ≠ id := by
    rintro rfl
    exact absurd hid (Nat.not_lt.mpr hother)
  rw [h.definition_eq (by simpa using hlt) hne, Scope.definition_extend_of_ne hne]

theorem Catalog.Covers.definition_leaf (hc : c.Covers s (s.enter d)) :
    c.definition ⟨s.catalog.size⟩ = d := by
  rw [hc.definition ⟨s.catalog.size⟩ (Nat.le_refl _) (by simp), Scope.definition_enter_self]

theorem Catalog.Covers.definition_record {isError : Bool} (hc : c.Covers s s')
    (hb : d.body = .record isError []) (h : Lays (s.enter d) (.fields ⟨s.catalog.size⟩ fs) s') :
    c.definition ⟨s.catalog.size⟩ = { d with body := .record isError fs } := by
  have hlt : s.catalog.size < s'.catalog.size := Nat.lt_of_lt_of_le (by simp) h.grows.size
  rw [hc.definition ⟨s.catalog.size⟩ (Nat.le_refl _) hlt, h.definition_record hb]

/-- The definition has a namespace. -/
def Definition.Spaced (d : Definition) : Prop :=
  ∃ s, d.space = some s ∧ s ≠ ""

theorem Scope.Sound.spaced (hs : s.Sound) {id : TypeId} (hid : id.index < s.catalog.size)
    (h : (s.catalog.definition id).space ≠ none) : (s.catalog.definition id).Spaced := by
  obtain ⟨text, ht⟩ := Option.ne_none_iff_exists'.mp h
  exact ⟨text, ht, fun he => hs.space id hid (he ▸ ht)⟩

/-- The type can be named where the document is read: outside all namespaces, or else with a
namespace of its own. -/
def Catalog.Places (c : Catalog) (space : Space) (id : TypeId) : Prop :=
  space = .root ∨ (id.index < c.size → (c.definition id).Spaced)

/-- The types that a definition names can be named in its namespace. -/
def Catalog.Nests (c : Catalog) : Prop :=
  ∀ id, id.index < c.size → ∀ f ∈ (c.definition id).body.fields,
    f.type.Over (c.Places (.ofName (c.definition id).space))

section
variable {space : Space} {id : TypeId}

theorem Catalog.Places.definition (h : c.Places space id) (hid : id.index < c.size)
    (hne : (c.definition id).space ≠ some "") :
    (c.definition id).Spaced ∨ space = .root ∧ (c.definition id).space = none := by
  cases hs : (c.definition id).space with
  | none => exact h.symm.imp (fun hspaced => hspaced hid) fun hroot => ⟨hroot, rfl⟩
  | some text => exact .inl ⟨text, hs, fun he => hne (he ▸ hs)⟩

/-- A full name leads back to its type where the type can be named. -/
theorem Catalog.Places.resolve (h : c.Places space id) (hid : id.index < c.size) (r : Registry) :
    r.resolve (c.fullName id) space.text? = r.get? (c.fullName id) := by
  unfold Registry.resolve
  rcases h with rfl | h
  · split <;> rfl
  · obtain ⟨text, ht, hne⟩ := h hid
    have hdot : '.' ∈ (c.fullName id).toList := by
      rw [fullName, Definition.fullName, ht]
      exact dot_mem_joinName hne _
    rw [if_pos (by simpa using hdot)]

end

/-- Every type of the catalog has a namespace, or none has and the document is read outside all
namespaces. -/
def Catalog.Placed (c : Catalog) (space : Space) : Prop :=
  (∀ id, id.index < c.size → (c.definition id).Spaced) ∨
    space = .root ∧ ∀ id, id.index < c.size → (c.definition id).space = none

theorem Catalog.Placed.places (h : c.Placed space) (id : TypeId) : c.Places space id :=
  h.symm.imp (fun hnone => hnone.1) fun hall => hall id

theorem Catalog.Placed.nests (h : c.Placed space) : c.Nests := by
  intro id hid f _
  refine Schema.Alike.refl (fun a => ⟨rfl, ?_⟩) f.type
  rcases h with hall | ⟨-, hnone⟩
  · exact .inr (hall a)
  · rw [hnone id hid]
    exact .inl rfl

/-! ### Objects read again -/

section
variable {M : Members}

theorem yields_readSchema_primitive {kind : Primitive}
    (hM : M.Shows [("type", .string kind.name)] props typeAttributes) :
    Yields (readSchema (.object M) space) s (.primitive kind props.tidy) s := by
  have htype : M.get? "type" = some (.string kind.name) := hM.get? (by decide)
  show Yields (readObject _ _ _ space) _ _ _
  simp only [readObject, htype, Primitive.ofName?_name, hM.without, yields_pure, and_self]

theorem yields_readSchema_array (h : Yields (readSchema v space) s t s')
    (hM : M.Shows [("type", .string "array"), ("items", v)] props typeAttributes) :
    Yields (readSchema (.object M) space) s (.array t props.tidy) s' := by
  have htype : M.get? "type" = some (.string "array") := hM.get? (by decide)
  have hitems : M.get? "items" = some v := hM.get? (by decide)
  have hprim : Primitive.ofName? "array" = none := by decide
  show Yields (readObject _ _ _ space) _ _ _
  simp only [readObject, htype, hitems, hprim, lookup_memberTypes, Option.map_some, hM.without]
  exact h.bind .pure

theorem yields_readSchema_map (h : Yields (readSchema v space) s t s')
    (hM : M.Shows [("type", .string "map"), ("values", v)] props typeAttributes) :
    Yields (readSchema (.object M) space) s (.map t props.tidy) s' := by
  have htype : M.get? "type" = some (.string "map") := hM.get? (by decide)
  have hvalues : M.get? "values" = some v := hM.get? (by decide)
  have hprim : Primitive.ofName? "map" = none := by decide
  show Yields (readObject _ _ _ space) _ _ _
  simp only [readObject, htype, hvalues, hprim, lookup_memberTypes, Option.map_some, hM.without]
  exact h.bind .pure

theorem yields_readSchema_record (isError : Bool) {items : List Json} {t : Schema}
    (htype : M.get? "type" = some (.string (if isError then "error" else "record")))
    (hfields : M.get? "fields" = some (.array items))
    (h : Yields (readRecord isError M (itemFields items) space) s t s') :
    Yields (readSchema (.object M) space) s t s' := by
  have hl : ((memberFields M).lookup "fields").getD [] = itemFields items := by
    rw [lookup_memberFields, hfields]
    rfl
  show Yields (readObject M _ _ space) _ _ _
  have hp : Primitive.ofName? "record" = none := by decide
  have hp' : Primitive.ofName? "error" = none := by decide
  cases isError <;> simpa only [readObject, htype, if_true, if_false, Bool.false_eq_true, hp, hp',
    hl] using h

theorem yields_readSchema_enum (htype : M.get? "type" = some (.string "enum"))
    (h : Yields (readEnum M space) s t s') : Yields (readSchema (.object M) space) s t s' := by
  show Yields (readObject M _ _ space) _ _ _
  have hp : Primitive.ofName? "enum" = none := by decide
  simpa only [readObject, htype, hp] using h

theorem yields_readSchema_fixed (htype : M.get? "type" = some (.string "fixed"))
    (h : Yields (readFixed M space) s t s') : Yields (readSchema (.object M) space) s t s' := by
  show Yields (readObject M _ _ space) _ _ _
  have hp : Primitive.ofName? "fixed" = none := by decide
  simpa only [readObject, htype, hp] using h

end

/-! ### Definitions read again -/

theorem get?_textMember (key other : String) (text : Option String) :
    (textMember key text).get? other =
      if other = key then (givenText text).map Json.string else none := by
  cases text with
  | none => simp [textMember, givenText]
  | some s => by_cases h : s = "" <;> simp [textMember, givenText, h, Members.get?_cons]

theorem docOf_eq_givenText {M : Members} {text : Option String}
    (h : M.get? "doc" = (givenText text).map Json.string) : docOf M = givenText text := by
  rw [docOf, h]
  cases givenText text <;> rfl

namespace Definition

/-- The attributes of every definition. -/
def headAttributes : List String :=
  ["type", "name", "namespace", "doc", "aliases"]

/-- The attributes that come after those of every definition. -/
def bodyAttributes : List String :=
  ["fields", "symbols", "size", "default"]

/-- The members of a definition in a document. -/
def members (d : Definition) (body : Members) : Members :=
  Members.withMissing (d.attributes ++ body) d.props

theorem get?_attributes (d : Definition) (key : String) :
    d.attributes.get? key =
      if key = "type" then some (.string d.body.typeName)
      else if key = "name" then some (.string d.name)
      else if key = "namespace" then (givenText d.space).map Json.string
      else if key = "doc" then (givenText d.doc).map Json.string
      else if key = "aliases" ∧ d.aliases ≠ [] then some (.array d.aliases) else none := by
  simp only [attributes, Members.get?_append, Members.get?_cons, Members.get?_nil, get?_textMember]
  cases d.aliases <;> grind [Members.get?_cons, Members.get?_nil]

/-- The members show what every definition has, and the body. -/
structure Shown (d : Definition) (body M : Members) : Prop where
  head : ∀ {key : String}, key ∈ headAttributes → M.get? key = d.attributes.get? key
  body : ∀ {key : String}, key ∈ bodyAttributes → M.get? key = body.get? key
  without : M.without typeAttributes = d.props.tidy

theorem shown_members (hp : d.props.Avoids typeAttributes) (body : Members)
    (hb : ∀ key, key ∉ bodyAttributes → body.get? key = none) : d.Shown body (d.members body) := by
  have hshows : (d.members body).Shows (d.attributes ++ body) d.props typeAttributes := by
    refine Members.shows_withMissing (fun key hk => ?_) hp
    simp only [typeAttributes, mem_cons, not_mem_nil, or_false, not_or] at hk
    rw [Members.get?_append, hb key (by simp [bodyAttributes, hk]), get?_attributes]
    simp [hk]
  constructor
  · intro key hk
    have hkeys : ∀ key ∈ headAttributes, key ∈ typeAttributes ∧ key ∉ bodyAttributes := by decide
    rw [hshows.get? (hkeys key hk).1, Members.get?_append, hb key (hkeys key hk).2, Option.or_none]
  · intro key hk
    have hkeys : ∀ key ∈ bodyAttributes, key ∈ typeAttributes ∧ key ∉ headAttributes := by decide
    have hnone : d.attributes.get? key = none := by
      have := (hkeys key hk).2
      simp only [headAttributes, mem_cons, not_mem_nil, or_false, not_or] at this
      rw [get?_attributes]
      simp [this]
    rw [hshows.get? (hkeys key hk).1, Members.get?_append, hnone, Option.none_or]
  · exact hshows.without

variable {body M : Members} (hM : d.Shown body M)
include hM

theorem Shown.typeName : M.get? "type" = some (.string d.body.typeName) := by
  rw [hM.head (by decide), get?_attributes, if_pos rfl]

/-- What has been read is entered as the tidy form of the definition. -/
theorem Shown.yields_define (hnew : s.registry.contains d.fullName = false) {b : Body}
    (hb : d.body.tidy = b) :
    Yields (define ⟨d.name, d.space, docOf M, d.aliases, M.without typeAttributes, b⟩) s
      ⟨s.catalog.size⟩ (s.enter d.tidy) := by
  have hdoc : docOf M = givenText d.doc := by
    refine docOf_eq_givenText ?_
    rw [hM.head (by decide), get?_attributes]
    rfl
  rw [hdoc, hM.without, Avroc.yields_define, ← hb]
  exact ⟨hnew, rfl, rfl⟩

variable (hd : d.Declarable)
include hd

theorem Shown.yields_readAliases (s : Scope) : Yields (readAliases M) s d.aliases s := by
  rw [Avroc.yields_readAliases, hM.head (by decide), get?_attributes]
  refine ⟨rfl, ?_, hd.aliases⟩
  by_cases h : d.aliases = [] <;> simp [h]

/-- The name and the namespace of a definition are read again where the document gives the
namespace, or where there is none to give. -/
theorem Shown.yields_readName (hplace : d.Spaced ∨ space = .root ∧ d.space = none)
    (s : Scope) : Yields (readName M space) s (d.name, d.space) s := by
  rw [Avroc.yields_readName]
  refine ⟨d.name, d.space, ?_, ne_empty_of_isLegalName hd.name, ?_, ?_, fun _ => hd.name,
    fun _ => hd.space⟩
  · rw [hM.head (by decide), get?_attributes]
    simp
  · unfold readSpace
    rw [hM.head (by decide), get?_attributes]
    rcases hplace with ⟨text, ht, hne⟩ | ⟨rfl, hnone⟩
    · simp [ht, givenText, hne]
    · simp [hnone, givenText]
  · rw [splitName_of_not_dot_mem (not_dot_mem_of_isLegalName hd.name)]
    rcases hplace with ⟨text, ht, hne⟩ | ⟨rfl, hnone⟩
    · simp [ht, spaceOf, hne]
    · simp [hnone]

end Definition

section
variable (hd : d.Declarable) (hnew : s.registry.contains d.fullName = false)
  (hplace : d.Spaced ∨ space = .root ∧ d.space = none)
include hd hnew hplace

/-- A definition without fields is written as it is, and read again. -/
theorem Definition.rereads_leaf (hb : ∀ isError fields, d.body ≠ .record isError fields)
    (m : Mention) (ns : List String) :
    ∃ body, Writes (bodyMembers m d.body) ns body ns ∧
      Yields (readSchema (.object (d.members body)) space) s (.named ⟨s.catalog.size⟩)
        (s.enter d.tidy) := by
  have hdecl := hd.body
  cases hbody : d.body with
  | record isError fields => exact absurd hbody (hb isError fields)
  | enum symbols default =>
    rw [hbody] at hdecl
    obtain ⟨hnd, hl, hmem⟩ := hdecl
    refine ⟨_, .pure, ?_⟩
    have hM := shown_members hd.props ([("symbols", .array (symbols.map .string))] ++
      (default.map fun text => ("default", Json.string text)).toList) fun key hk => by
        simp only [bodyAttributes, mem_cons, not_or] at hk
        cases default <;> simp [Members.get?_cons, hk]
    generalize d.members _ = M at hM ⊢
    have hsymbols : M.get? "symbols" = some (.array (symbols.map .string)) := hM.body (by decide)
    have hdefault : (M.get? "default").getD .null = (default.map Json.string).getD .null := by
      rw [hM.body (by decide)]
      cases default <;> rfl
    refine yields_readSchema_enum (by rw [hM.typeName, hbody]; rfl) ?_
    refine (hM.yields_readName hd hplace s).bind ?_
    simp only [hsymbols, hdefault]
    refine (hM.yields_readAliases hd s).bind (.bind
      (yields_checkSymbols.mpr ⟨rfl, symbols, rfl, rfl, hnd, fun _ _ => not_mem_nil, fun _ => hl⟩)
      (.bind (yields_checkEnumDefault.mpr ⟨rfl, rfl, hmem⟩) ?_))
    exact (hM.yields_define hnew (by rw [hbody]; rfl)).bind .pure
  | fixed size =>
    rw [hbody] at hdecl
    refine ⟨_, .pure, ?_⟩
    have hM := shown_members hd.props [("size", .int size)] fun key hk => by
      simp only [bodyAttributes, mem_cons, not_or] at hk
      simp [Members.get?_cons, hk]
    generalize d.members _ = M at hM ⊢
    have hsize : M.get? "size" = some (.int size) := hM.body (by decide)
    refine yields_readSchema_fixed (by rw [hM.typeName, hbody]; rfl) ?_
    refine (hM.yields_readName hd hplace s).bind ?_
    simp only [hsize, if_neg (Int.not_lt.mpr hdecl)]
    exact (hM.yields_readAliases hd s).bind
      ((hM.yields_define hnew (by rw [hbody]; rfl)).bind .pure)

theorem Definition.yields_readSchema_record {isError : Bool} {items : List Json}
    (hbody : d.body = .record isError [])
    (h : Yields (readFields ⟨s.catalog.size⟩ (.ofName d.space) (itemFields items))
      (s.enter d.tidy) () s') :
    Yields (readSchema (.object (d.members [("fields", .array items)])) space) s
      (.named ⟨s.catalog.size⟩) s' := by
  have hM := shown_members hd.props [("fields", .array items)] fun key hk => by
    simp only [bodyAttributes, mem_cons, not_or] at hk
    simp [Members.get?_cons, hk]
  generalize d.members _ = M at hM ⊢
  have hfields : M.get? "fields" = some (.array items) := hM.body (by decide)
  refine Avroc.yields_readSchema_record isError (by rw [hM.typeName, hbody]; rfl) hfields ?_
  refine (hM.yields_readName hd hplace s).bind ?_
  simp only [hfields]
  exact (hM.yields_readAliases hd s).bind
    ((hM.yields_define hnew (by rw [hbody]; rfl)).bind (h.bind .pure))

end

/-! ### Fields read again -/

/-- The members of a field in a document, before the attributes without a meaning of their own. -/
def Field.ownMembers (f : Field) (texts : List Json) (type : Json) : Members :=
  [("name", .string f.name), ("type", type)] ++ textMember "doc" f.doc ++
    (f.default.map fun v => ("default", v)).toList ++ Field.orderMember f.order ++
    (if texts.isEmpty then [] else [("aliases", .array texts)])

section
variable {texts : List Json}

theorem Field.writes_documentWith {m : Mention} (ha : f.aliases = .array texts)
    (h : Writes (f.type.documentWith m) ns type ns') :
    Writes (f.documentWith m) ns
      (.object (Members.withMissing (f.ownMembers texts type) f.props)) ns' := by
  have haliases : aliasesMember f.aliases =
      .ok (if texts.isEmpty then [] else [("aliases", .array texts)]) := by
    rw [ha]
    cases texts <;> rfl
  simp only [Field.documentWith, writes_bind, writes_pure]
  exact ⟨type, ns', h, _, ns', writes_lift.mpr ⟨haliases, rfl⟩, rfl, rfl⟩

theorem get?_orderMember (order : Json) (key : String) :
    (Field.orderMember order).get? key =
      if key = "order" ∧ (tidyOrder order).isTruthy = true then some order else none := by
  unfold Field.orderMember tidyOrder
  split
  · simp [Json.isTruthy]
  · split <;> simp_all [Members.get?_cons]

theorem Field.get?_ownMembers (f : Field) (texts : List Json) (type : Json) (key : String) :
    (f.ownMembers texts type).get? key =
      if key = "name" then some (.string f.name)
      else if key = "type" then some type
      else if key = "doc" then (givenText f.doc).map Json.string
      else if key = "default" then f.default
      else if key = "order" then
        (if (tidyOrder f.order).isTruthy = true then some f.order else none)
      else if key = "aliases" ∧ texts ≠ [] then some (.array texts) else none := by
  simp only [Field.ownMembers, Members.get?_append, Members.get?_cons, Members.get?_nil,
    get?_textMember, get?_orderMember]
  cases f.default <;> cases texts <;> grind [Members.get?_cons, Members.get?_nil]

theorem getD_tidyOrder (h : LegalOrder order) :
    (if (tidyOrder order).isTruthy = true then some order else none).getD .null =
      tidyOrder order := by
  rcases h with rfl | rfl | rfl | rfl <;> rfl

theorem LegalOrder.tidy (h : LegalOrder order) : LegalOrder (tidyOrder order) := by
  rcases h with rfl | rfl | rfl | rfl
  · exact .inl rfl
  · exact .inl rfl
  · exact .inr (.inr (.inl rfl))
  · exact .inr (.inr (.inr rfl))

/-- A field whose type is read again is read again. -/
theorem Field.yields_readField (hf : f.Declarable c) (ha : f.aliases = .array texts)
    (h : Yields (readSchema type space) s f.type.tidy s')
    (hfit : ∀ v ∈ f.default, v.fits s'.catalog f.type.tidy = true) :
    Yields (readField (.object (Members.withMissing (f.ownMembers texts type) f.props)) space)
      s f.tidy s' := by
  have hshows : (Members.withMissing (f.ownMembers texts type) f.props).Shows
      (f.ownMembers texts type) f.props fieldAttributes := by
    refine Members.shows_withMissing (fun key hk => ?_) hf.props
    simp only [fieldAttributes, mem_cons, not_mem_nil, or_false, not_or] at hk
    rw [Field.get?_ownMembers]
    simp [hk]
  obtain ⟨hget, hwithout⟩ := hshows
  generalize Members.withMissing (f.ownMembers texts type) f.props = M at hwithout hget ⊢
  have hname : M.get? "name" = some (.string f.name) := by
    rw [hget (by decide), Field.get?_ownMembers]; rfl
  have htype : M.get? "type" = some type := by
    rw [hget (by decide), Field.get?_ownMembers]; rfl
  have hdefault : M.get? "default" = f.default := by
    rw [hget (by decide), Field.get?_ownMembers]; rfl
  have horder : (M.get? "order").getD .null = tidyOrder f.order := by
    rw [hget (by decide), Field.get?_ownMembers]
    exact getD_tidyOrder hf.order
  have hdoc : docOf M = givenText f.doc := by
    refine docOf_eq_givenText ?_
    rw [hget (by decide), Field.get?_ownMembers]
    rfl
  have haliases : Yields (readAliases M) s' texts s' := by
    obtain ⟨texts', ha', htexts⟩ := hf.aliases
    obtain rfl : texts = texts' := by rw [ha] at ha'; cases ha'; rfl
    rw [yields_readAliases, hget (by decide), Field.get?_ownMembers]
    refine ⟨rfl, ?_, htexts⟩
    by_cases h : texts = [] <;> simp [h]
  show Yields (readFieldWith M (memberTypes M) space) s f.tidy s'
  simp only [readFieldWith, hname, lookup_memberTypes, htype, Option.map_some, hdefault, horder,
    hdoc, hwithout, yields_bind, yields_checkName, yields_checkOrder, yields_makeField]
  refine ⟨(), s, ⟨rfl, fun _ => hf.name⟩, (), s, ⟨rfl, hf.order.tidy⟩, _, s', h, texts, s',
    haliases, ?_, yields_checkDefault.mpr ⟨rfl, fun v hv _ => hfit v hv⟩⟩
  rw [Field.tidy, ha]

end

/-- A field that passes its checks is written and read again with its type. -/
theorem Field.Declarable.rereads {m : Mention} (hf : f.Declarable s'.catalog)
    (hw : Writes (f.type.documentWith m) ns type ns')
    (hy : Yields (readSchema type space) s f.type.tidy s'.tidy) :
    ∃ v, Writes (f.documentWith m) ns v ns' ∧ Yields (readField v space) s f.tidy s'.tidy := by
  obtain ⟨texts, ha, -⟩ := hf.aliases
  have halike : f.type.Alike Eq f.type.tidy := f.type.alike_tidy
  refine ⟨_, Field.writes_documentWith ha hw, Field.yields_readField hf ha hy fun v hv => ?_⟩
  rw [Scope.catalog_tidy, ← Json.fits_alike s'.catalog.alike_tidy v _ _ halike]
  exact hf.default v hv

/-! ### Pieces read again -/

theorem Scope.names_enter (h : s.registry.contains d.fullName = false) :
    (s.enter d).registry.names = s.registry.names ++ [d.fullName] :=
  Registry.names_add_of_new h _

/-- A definition that is new where the piece begins is written out. -/
theorem writes_mention_new {id : TypeId} {d' : Definition} {body : Members}
    (hdef : c.definition id = d') (hfull : d'.fullName = d.fullName)
    (hnew : s.registry.contains d.fullName = false)
    (h : Writes (Definition.bodyMembers (c.mention depth) d'.body)
      (s.enter d).registry.names body ns') :
    Writes (c.mention (depth + 1) id) s.registry.names (.object (d'.members body)) ns' := by
  subst hdef
  have hnot : c.fullName id ∉ s.registry.names := by
    rw [Catalog.fullName, hfull]
    exact Registry.notMem_names_of_new hnew
  rw [Scope.names_enter hnew, ← hfull] at h
  rw [Writes, Catalog.mention_of_notMem hnot, Definition.documentWith_run]
  exact Writes.bind h .pure

/-- The piece is written over a catalog, and reading what is written lays it between the tidy forms
of the two states. -/
def Piece.Rereads (c : Catalog) (depth : Nat) (space : Space) (s s' : Scope) : Piece → Prop
  | .type t => ∃ v,
    Writes (t.documentWith (c.mention depth)) s.registry.names v s'.registry.names ∧
      Yields (readSchema v space) s.tidy t.tidy s'.tidy
  | .branches ts => ∃ vs,
    Writes (Schema.branchDocuments (c.mention depth) ts) s.registry.names vs s'.registry.names ∧
      Yields (readBranches vs space) s.tidy (Schema.tidyAll ts) s'.tidy
  | .fields id fs => ∃ vs,
    Writes (Field.documentsWith (c.mention depth) fs) s.registry.names vs s'.registry.names ∧
      Yields (readFields id space (itemFields vs)) s.tidy () s'.tidy

/-- The piece mentions only named types with the property. -/
def Piece.Over (P : TypeId → Prop) : Piece → Prop
  | .type t => t.Over P
  | .branches ts => ∀ t ∈ ts, t.Over P
  | .fields _ fs => ∀ f ∈ fs, f.type.Over P

theorem Catalog.Placed.over (h : c.Placed space) (p : Piece) : p.Over (c.Places space) := by
  have hall : ∀ t : Schema, t.Over (c.Places space) :=
    Schema.Alike.refl fun id => ⟨rfl, h.places id⟩
  cases p with
  | type t => exact hall t
  | branches ts => exact fun t _ => hall t
  | fields id fs => exact fun f _ => hall f.type

/-- The record whose fields are laid is below a bound. -/
def Piece.TargetBelow (n : Nat) : Piece → Prop
  | .fields id _ => id.index < n
  | _ => True

/-- The branches of a union are told apart by what their tidy forms show. -/
theorem yields_checkBranches_tidy (h : Yields (checkBranches [] ts) s () s') :
    Yields (checkBranches [] (Schema.tidyAll ts)) s.tidy () s'.tidy := by
  obtain ⟨rfl, hu, hnd, -⟩ := yields_checkBranches.mp h
  rw [Schema.tidyAll_eq, yields_checkBranches]
  refine ⟨rfl, ?_, ?_, fun _ _ => not_mem_nil⟩
  · intro t ht
    obtain ⟨t₀, ht₀, rfl⟩ := mem_map.mp ht
    rw [← t₀.alike_tidy.isUnion_eq, hu t₀ ht₀]
  · have hkeys : (ts.map Schema.tidy).map (·.branchKey s'.tidy.catalog) =
        ts.map (·.branchKey s'.catalog) := by
      rw [map_map]
      refine map_congr_left fun t _ => ?_
      exact (t.alike_tidy.branchKey_eq s'.catalog.alike_tidy).symm
    rw [hkeys]
    exact hnd

/-- **A piece that has been laid can be written down and read again**: over a catalog that holds its
definitions in their final form, with enough depth for those that it brings, and where the types
that it names can be named. -/
theorem Lays.rereads {p : Piece} (h : Lays s p s') (hs : s.Sound) (hc : c.Covers s s')
    (hdepth : s'.catalog.size ≤ s.catalog.size + depth) (hnests : c.Nests)
    (hplace : p.Over (c.Places space)) (hp : p.TargetBelow s.catalog.size) :
    p.Rereads c depth space s s' := by
  induction h generalizing depth space with
  | @primitive s kind props hprops =>
    by_cases hempty : props = []
    · subst hempty
      refine ⟨.string kind.name, .pure, ?_⟩
      show Yields (resolveType kind.name space) _ _ _
      rw [resolveType, Primitive.ofName?_name]
      exact .pure
    · refine ⟨.object (Members.withMissing [("type", .string kind.name)] props),
        by simp [Schema.documentWith, hempty],
        yields_readSchema_primitive (Members.shows_withMissing ?_ hprops)⟩
      simp +contextual [typeAttributes, Members.get?_cons]
  | @array s s' items props hprops h ih =>
    obtain ⟨_, _, ⟨⟩, hitems, -⟩ := hplace
    obtain ⟨v, hw, hy⟩ := ih hs hc hdepth hitems trivial
    refine ⟨_, hw.bind .pure, yields_readSchema_array hy (Members.shows_withMissing ?_ hprops)⟩
    simp +contextual [typeAttributes, Members.get?_cons]
  | @map s s' values props hprops h ih =>
    obtain ⟨_, _, ⟨⟩, hvalues, -⟩ := hplace
    obtain ⟨v, hw, hy⟩ := ih hs hc hdepth hvalues trivial
    refine ⟨_, hw.bind .pure, yields_readSchema_map hy (Members.shows_withMissing ?_ hprops)⟩
    simp +contextual [typeAttributes, Members.get?_cons]
  | @union s s' ts h hb ih =>
    obtain ⟨_, ⟨⟩, hts⟩ := hplace
    rw [Schema.allAlike_iff, List.forall₂_same] at hts
    obtain ⟨vs, hw, hy⟩ := ih hs hc hdepth hts trivial
    refine ⟨.array vs, hw.bind .pure, ?_⟩
    show Yields (readBranches vs space >>= makeUnion) _ _ _
    exact hy.bind (yields_makeUnion.mpr ⟨rfl, yields_checkBranches_tidy hb⟩)
  | @known s id hid hprim =>
    have hlt := (hs.get? _ id hid).1
    have hname := hc.fullName id hlt
    obtain ⟨_, ⟨⟩, -, hid'⟩ := hplace
    refine ⟨.string (c.fullName id), Catalog.mention_of_mem ?_, ?_⟩
    · rw [hname]
      exact Registry.mem_names_of_get? hid
    · show Yields (resolveType (c.fullName id) space) _ _ _
      rw [resolveType, hname, hprim]
      refine Yields.bind rfl ?_
      rw [← hname, hid'.resolve (Nat.lt_of_lt_of_le hlt hc.size), hname, Scope.registry_tidy, hid]
      exact .pure
  | @leaf s d hd hnew hb =>
    have hdef := hc.definition_leaf
    obtain ⟨_, ⟨⟩, -, hid⟩ := hplace
    have hspace := hid.definition (Nat.lt_of_lt_of_le (by simp) hc.size)
      (by rw [hdef]; exact hd.space_ne_empty)
    obtain ⟨depth, rfl⟩ : ∃ n, depth = n + 1 := ⟨depth - 1, by simp at hdepth; omega⟩
    rw [hdef] at hspace
    obtain ⟨body, hw, hy⟩ := Definition.rereads_leaf (s := s.tidy) hd hnew hspace hb
      (c.mention depth) (s.enter d).registry.names
    rw [Scope.catalog_tidy, Catalog.size_tidy, ← Scope.tidy_enter] at hy
    exact ⟨_, writes_mention_new hdef rfl hnew hw, hy⟩
  | @record s s' d isError fs hd hnew hb h ih =>
    have hlt : s.catalog.size < s'.catalog.size := Nat.lt_of_lt_of_le (by simp) h.grows.size
    have hdef := hc.definition_record hb h
    have hlt' : (⟨s.catalog.size⟩ : TypeId).index < c.size := Nat.lt_of_lt_of_le hlt hc.size
    obtain ⟨_, ⟨⟩, -, hid⟩ := hplace
    have hspace := hid.definition hlt' (by rw [hdef]; exact hd.space_ne_empty)
    have hinside := hnests _ hlt'
    rw [hdef] at hspace hinside
    obtain ⟨depth, rfl⟩ : ∃ n, depth = n + 1 := ⟨depth - 1, by omega⟩
    obtain ⟨vs, hw, hy⟩ := ih (hs.enter hnew (by rw [hb]; rfl) hd.space_ne_empty)
      (hc.right (by simp)) (show s'.catalog.size ≤ (s.enter d).catalog.size + depth by simp; omega)
      hinside (by simp [Piece.TargetBelow])
    rw [Scope.tidy_enter] at hy
    have hread := @Definition.yields_readSchema_record d s.tidy s'.tidy space hd hnew hspace
      isError vs hb (by rw [Scope.catalog_tidy, Catalog.size_tidy]; exact hy)
    rw [Scope.catalog_tidy, Catalog.size_tidy] at hread
    have hmembers : d.members [("fields", .array vs)] =
        { d with body := .record isError fs }.members [("fields", .array vs)] := by
      rw [Definition.members, Definition.attributes, hb]
      rfl
    rw [hmembers] at hread
    exact ⟨_, writes_mention_new hdef rfl hnew (hw.bind .pure), hread⟩
  | @noBranch s => exact ⟨[], .pure, .pure⟩
  | @branch s s₁ s' t ts h h' ih ih' =>
    obtain ⟨ht, hts⟩ := forall_mem_cons.mp hplace
    have hle := h.grows.size
    have hle' := h'.grows.size
    obtain ⟨v, hw, hy⟩ := ih hs (hc.branch h') (Nat.le_trans hle' hdepth) ht trivial
    obtain ⟨vs, hws, hys⟩ := ih' (h.sound hs).1 (hc.right hle)
      (show s'.catalog.size ≤ s₁.catalog.size + depth by omega) hts trivial
    refine ⟨v :: vs, ?_, ?_⟩
    · exact hw.bind (hws.bind .pure)
    · exact hy.bind (hys.bind .pure)
  | @noField s id => exact ⟨[], .pure, .pure⟩
  | @field s s₁ s' id f fs h hf hnew h' ih ih' =>
    obtain ⟨hfirst, hrest⟩ := forall_mem_cons.mp hplace
    have hle := h.grows.size
    have hle' : s₁.catalog.size ≤ s'.catalog.size := by simpa using h'.grows.size
    have hid : id.index < s₁.catalog.size := Nat.lt_of_lt_of_le hp hle
    obtain ⟨v, hw, hy⟩ := ih hs (hc.field hp h') (Nat.le_trans hle' hdepth) hfirst trivial
    obtain ⟨hs₁, hwithin⟩ := h.sound hs
    obtain ⟨vs, hws, hys⟩ := ih' (hs₁.extend id hwithin) (hc.right (by simpa using hle))
      (show s'.catalog.size ≤ (s₁.extend id f).catalog.size + depth by simp; omega) hrest
      (by simpa [Piece.TargetBelow] using hid)
    obtain ⟨v', hwf, hyf⟩ := hf.rereads hw hy
    refine ⟨v' :: vs, ?_, ?_⟩
    · exact hwf.bind (hws.bind .pure)
    · refine hyf.bind (.bind (a := ()) ?_ hys)
      rw [Scope.tidy_extend, yields_addField]
      refine ⟨fun g hg => ?_, rfl⟩
      rw [Scope.catalog_tidy, Catalog.definition_tidy, Definition.tidy, Body.fields_tidy] at hg
      obtain ⟨g₀, hg₀, rfl⟩ := mem_map.mp hg
      exact hnew g₀ hg₀

end Avroc
