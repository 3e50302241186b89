import Avroc.Proofs.Name
import Avroc.Proofs.Schema.Alike
import Avroc.Proofs.Schema.Scope

/-!
# Laying definitions

What reading a type does to the state, told without the text that is read.  `Lays s p s'` says that
the piece `p` of a definition is laid between the states `s` and `s'`: a named type is either known
already, or it is entered, and a record then gets its fields one by one, each checked in the state
that its type has left.  Every way of writing a type down goes through such steps, and everything
that is said about their order is said here once.

* `Scope.Sound`, `Lays.sound` : the registry leads to the definitions of its names, and definitions
  mention only definitions that are there.
-/

namespace Avroc

open List

variable {isError : Bool} {d : Definition} {fs : List Field} {p : Piece} {t : Schema} {s s' : Scope}
  {id other : TypeId} {f : Field} {n : Nat} {P Q : TypeId → Prop}

/-! ### What the checks ask for -/

/-- An order that a field may have. -/
def LegalOrder (order : Json) : Prop :=
  order = .null ∨ order = .string "ascending" ∨ order = .string "descending" ∨
    order = .string "ignore"

/-- What the kinds of definitions ask of their parts when they are entered. -/
def Body.Declarable : Body → Prop
  | .record _ fields => fields = []
  | .enum symbols default =>
    symbols.Nodup ∧ (∀ t ∈ symbols, isLegalName t = true) ∧ ∀ t ∈ default, t ∈ symbols
  | .fixed size => 0 ≤ size

/-- A definition that every check lets pass. -/
structure Definition.Declarable (d : Definition) : Prop where
  name : isLegalName d.name = true
  space : LegalSpace d.space
  aliases : d.aliases.all isText = true
  props : d.props.Avoids typeAttributes
  body : d.body.Declarable

theorem Definition.Declarable.space_ne_empty (h : d.Declarable) : d.space ≠ some "" := by
  intro hs
  have := h.space "" hs "" (by simp [Text.splitString, Text.splitAtEach])
  cases this

/-- A field that every check lets pass, its default in view of the catalog. -/
structure Field.Declarable (c : Catalog) (f : Field) : Prop where
  name : isLegalName f.name = true
  order : LegalOrder f.order
  aliases : ∃ texts, f.aliases = .array texts ∧ texts.all isText = true
  props : f.props.Avoids fieldAttributes
  default : ∀ v ∈ f.default, v.fits c f.type = true

/-! ### Pieces -/

/-- A part of a definition. -/
inductive Piece
  | type (t : Schema)
  | branches (ts : List Schema)
  | fields (id : TypeId) (fs : List Field)

/-- The piece is laid between two states. -/
inductive Lays : Scope → Piece → Scope → Prop
  | primitive {s : Scope} {kind : Primitive} {props : Members} :
      props.Avoids typeAttributes → Lays s (.type (.primitive kind props)) s
  | array {s s' : Scope} {items : Schema} {props : Members} :
      props.Avoids typeAttributes → Lays s (.type items) s' →
      Lays s (.type (.array items props)) s'
  | map {s s' : Scope} {values : Schema} {props : Members} :
      props.Avoids typeAttributes → Lays s (.type values) s' →
      Lays s (.type (.map values props)) s'
  | union {s s' : Scope} {ts : List Schema} :
      Lays s (.branches ts) s' → Yields (checkBranches [] ts) s' () s' →
      Lays s (.type (.union ts)) s'
  | known {s : Scope} {id : TypeId} :
      s.registry.get? (s.catalog.fullName id) = some id →
      Primitive.ofName? (s.catalog.fullName id) = none → Lays s (.type (.named id)) s
  | leaf {s : Scope} {d : Definition} :
      d.Declarable → s.registry.contains d.fullName = false →
      (∀ isError fields, d.body ≠ .record isError fields) →
      Lays s (.type (.named ⟨s.catalog.size⟩)) (s.enter d)
  | record {s s' : Scope} {d : Definition} {isError : Bool} {fs : List Field} :
      d.Declarable → s.registry.contains d.fullName = false → d.body = .record isError [] →
      Lays (s.enter d) (.fields ⟨s.catalog.size⟩ fs) s' →
      Lays s (.type (.named ⟨s.catalog.size⟩)) s'
  | noBranch {s : Scope} : Lays s (.branches []) s
  | branch {s s₁ s' : Scope} {t : Schema} {ts : List Schema} :
      Lays s (.type t) s₁ → Lays s₁ (.branches ts) s' → Lays s (.branches (t :: ts)) s'
  | noField {s : Scope} {id : TypeId} : Lays s (.fields id []) s
  | field {s s₁ s' : Scope} {id : TypeId} {f : Field} {fs : List Field} :
      Lays s (.type f.type) s₁ → f.Declarable s₁.catalog →
      (∀ g ∈ (s₁.catalog.definition id).body.fields, g.name ≠ f.name) →
      Lays (s₁.extend id f) (.fields id fs) s' → Lays s (.fields id (f :: fs)) s'

/-! ### What stays as it was -/

theorem Body.fields_eq_nil {b : Body} (h : ∀ isError fields, b ≠ .record isError fields) :
    b.fields = [] := by
  cases b with
  | record isError fields => exact absurd rfl (h isError fields)
  | enum | fixed => rfl

namespace Definition

@[simp] theorem addField_fullName (d : Definition) (f : Field) :
    (d.addField f).fullName = d.fullName := by
  rw [addField]
  split <;> rfl

@[simp] theorem addField_space (d : Definition) (f : Field) : (d.addField f).space = d.space := by
  rw [addField]
  split <;> rfl

/-- A record gets the field, and anything else stays as it is. -/
theorem addField_cases (d : Definition) (f : Field) : d.addField f = d ∨ ∃ isError fs,
    d.body = .record isError fs ∧
      d.addField f = { d with body := .record isError (fs ++ [f]) } := by
  unfold addField
  split
  · exact .inr ⟨_, _, ‹_›, rfl⟩
  · exact .inl rfl

theorem addField_fields (h : d.body = .record isError fs) (f : Field) :
    d.addField f = { d with body := .record isError (fs ++ [f]) } := by
  rw [addField, h]

/-- The fields of a definition with one more are among its own and the new one. -/
theorem mem_fields_addField {g : Field} (h : g ∈ (d.addField f).body.fields) :
    g ∈ d.body.fields ∨ g = f := by
  rw [addField] at h
  split at h
  · rename_i hb
    rw [hb]
    simpa [Body.fields] using h
  · exact .inl h

theorem forall_fields_addField {Q : Field → Prop} (h : ∀ g ∈ d.body.fields, Q g) (hf : Q f) :
    ∀ g ∈ (d.addField f).body.fields, Q g := by
  intro g hg
  rcases mem_fields_addField hg with hg | rfl
  · exact h g hg
  · exact hf

theorem foldl_addField (h : d.body = .record isError fs) (gs : List Field) :
    gs.foldl addField d = { d with body := .record isError (fs ++ gs) } := by
  induction gs generalizing d fs with
  | nil => rw [foldl_nil, append_nil, ← h]
  | cons g gs ih =>
    rw [foldl_cons, addField_fields h g, ih rfl, append_assoc, singleton_append]

end Definition

theorem Catalog.definition_of_size_le {c : Catalog} (h : c.size ≤ id.index) :
    c.definition id = default := by
  rw [definition, getD_eq_getElem?_getD, getElem?_eq_none h]
  rfl

namespace Scope

@[simp] theorem size_enter (s : Scope) (d : Definition) :
    (s.enter d).catalog.size = s.catalog.size + 1 :=
  Catalog.size_add s.catalog d

@[simp] theorem size_extend (s : Scope) (id : TypeId) (f : Field) :
    (s.extend id f).catalog.size = s.catalog.size :=
  Catalog.size_modify s.catalog id _

@[simp] theorem registry_extend (s : Scope) (id : TypeId) (f : Field) :
    (s.extend id f).registry = s.registry := rfl

theorem definition_enter_of_lt (h : id.index < s.catalog.size) (d : Definition) :
    (s.enter d).catalog.definition id = s.catalog.definition id :=
  Catalog.definition_add_of_lt h d

@[simp] theorem definition_enter_self (s : Scope) (d : Definition) :
    (s.enter d).catalog.definition ⟨s.catalog.size⟩ = d :=
  Catalog.definition_add_self s.catalog d

@[simp] theorem fullName_enter_self (s : Scope) (d : Definition) :
    (s.enter d).catalog.fullName ⟨s.catalog.size⟩ = d.fullName := by
  rw [Catalog.fullName, definition_enter_self]

theorem definition_extend_of_ne (h : other ≠ id) (s : Scope) (f : Field) :
    (s.extend id f).catalog.definition other = s.catalog.definition other :=
  Catalog.definition_modify_of_ne h _

theorem definition_extend_self (h : id.index < s.catalog.size) (f : Field) :
    (s.extend id f).catalog.definition id = (s.catalog.definition id).addField f :=
  Catalog.definition_modify_self h _

/-- A definition after a field has been added is as before, or has that field as well. -/
theorem definition_extend (s : Scope) (id : TypeId) (f : Field) (other : TypeId) :
    (s.extend id f).catalog.definition other = s.catalog.definition other ∨
      other = id ∧ (s.extend id f).catalog.definition other =
        (s.catalog.definition other).addField f := by
  by_cases he : other = id
  · subst he
    by_cases hid : other.index < s.catalog.size
    · exact .inr ⟨rfl, definition_extend_self hid f⟩
    · rw [Catalog.definition_of_size_le (by simpa using hid),
        Catalog.definition_of_size_le (Nat.le_of_not_lt hid)]
      exact .inl rfl
  · exact .inl (definition_extend_of_ne he s f)

/-- What a new field keeps holds of every definition after it has been added. -/
theorem extend_induction {P : Definition → Prop} (h : P (s.catalog.definition other))
    (hf : ∀ d, P d → P (d.addField f)) : P ((s.extend id f).catalog.definition other) := by
  rcases definition_extend s id f other with he | ⟨-, he⟩ <;> rw [he]
  · exact h
  · exact hf _ h

theorem forall_fields_extend {Q : Field → Prop}
    (h : ∀ g ∈ (s.catalog.definition other).body.fields, Q g) (hf : Q f) :
    ∀ g ∈ ((s.extend id f).catalog.definition other).body.fields, Q g :=
  extend_induction (P := fun d => ∀ g ∈ d.body.fields, Q g) h
    fun _ h => Definition.forall_fields_addField h hf

theorem fullName_extend (s : Scope) (id : TypeId) (f : Field) (other : TypeId) :
    (s.extend id f).catalog.fullName other = s.catalog.fullName other := by
  rw [Catalog.fullName, Catalog.fullName]
  rcases definition_extend s id f other with he | ⟨-, he⟩ <;> simp [he]

/-- Definitions have been added, and none has lost its name. -/
structure Grows (s s' : Scope) : Prop where
  size : s.catalog.size ≤ s'.catalog.size
  fullName : ∀ id, id.index < s.catalog.size → s'.catalog.fullName id = s.catalog.fullName id
  get? : ∀ name id, s.registry.get? name = some id → s'.registry.get? name = some id
  checksNames : s'.registry.checksNames = s.registry.checksNames
  checksDefaults : s'.registry.checksDefaults = s.registry.checksDefaults

theorem Grows.refl (s : Scope) : s.Grows s :=
  ⟨Nat.le_refl _, fun _ _ => rfl, fun _ _ h => h, rfl, rfl⟩

theorem Grows.trans {s₁ : Scope} (h : s.Grows s₁) (h' : s₁.Grows s') : s.Grows s' where
  size := Nat.le_trans h.size h'.size
  fullName id hid := (h'.fullName id (Nat.lt_of_lt_of_le hid h.size)).trans (h.fullName id hid)
  get? name id hn := h'.get? name id (h.get? name id hn)
  checksNames := h'.checksNames.trans h.checksNames
  checksDefaults := h'.checksDefaults.trans h.checksDefaults

theorem grows_enter (h : s.registry.contains d.fullName = false) :
    s.Grows (s.enter d) where
  size := by simp
  fullName id hid := by rw [Catalog.fullName, Catalog.fullName, definition_enter_of_lt hid]
  get? name id hn := by
    have hne : name ≠ d.fullName := by
      rintro rfl
      rw [Registry.contains_eq_false_iff.mp h] at hn
      cases hn
    rw [enter, Registry.get?_add, if_neg hne, hn]
  checksNames := rfl
  checksDefaults := rfl

theorem grows_extend (s : Scope) (id : TypeId) (f : Field) : s.Grows (s.extend id f) where
  size := by simp
  fullName other _ := fullName_extend s id f other
  get? _ _ h := h
  checksNames := rfl
  checksDefaults := rfl

end Scope

theorem Lays.grows (h : Lays s p s') : s.Grows s' := by
  induction h with
  | primitive | known | noBranch | noField => exact .refl _
  | array _ _ ih | map _ _ ih | union _ _ ih => exact ih
  | leaf _ hn _ => exact Scope.grows_enter hn
  | record _ hn _ _ ih => exact (Scope.grows_enter hn).trans ih
  | branch _ _ ih ih' => exact ih.trans ih'
  | field _ _ _ _ ih ih' => exact (ih.trans (Scope.grows_extend _ _ _)).trans ih'

/-- The piece leaves the definition as it is: only the record whose fields are laid changes. -/
def Piece.Leaves (id : TypeId) : Piece → Prop
  | .fields target _ => id ≠ target
  | _ => True

theorem Lays.definition_eq (h : Lays s p s') (hid : id.index < s.catalog.size) (hp : p.Leaves id) :
    s'.catalog.definition id = s.catalog.definition id := by
  induction h with
  | primitive | known | noBranch | noField => rfl
  | array _ _ ih | map _ _ ih | union _ _ ih => exact ih hid trivial
  | @leaf s d _ _ _ => exact Scope.definition_enter_of_lt hid d
  | @record s s' d isError fs _ _ _ _ ih =>
    have hne : id ≠ ⟨s.catalog.size⟩ := by
      rintro rfl
      exact Nat.lt_irrefl _ hid
    rw [ih (by simpa using Nat.lt_succ_of_lt hid) hne, Scope.definition_enter_of_lt hid]
  | branch h _ ih ih' =>
    rw [ih' (Nat.lt_of_lt_of_le hid h.grows.size) trivial, ih hid trivial]
  | field h _ _ _ ih ih' =>
    rw [ih' (by simpa using Nat.lt_of_lt_of_le hid h.grows.size) hp,
      Scope.definition_extend_of_ne hp, ih hid trivial]

/-- The record whose fields are laid has them at the end. -/
theorem Lays.definition_target (h : Lays s (.fields id fs) s') (hid : id.index < s.catalog.size) :
    s'.catalog.definition id = fs.foldl Definition.addField (s.catalog.definition id) := by
  induction fs generalizing s with
  | nil => cases h; rfl
  | cons f fs ih =>
    cases h with
    | field ht _ _ hfs =>
      have hid₁ := Nat.lt_of_lt_of_le hid ht.grows.size
      rw [ih hfs (by simpa using hid₁), Scope.definition_extend_self hid₁,
        ht.definition_eq hid trivial, foldl_cons]

/-- A record that is laid consists of the fields that were laid. -/
theorem Lays.definition_record (hb : d.body = .record isError [])
    (h : Lays (s.enter d) (.fields ⟨s.catalog.size⟩ fs) s') :
    s'.catalog.definition ⟨s.catalog.size⟩ = { d with body := .record isError fs } := by
  rw [h.definition_target (by simp), Scope.definition_enter_self,
    Definition.foldl_addField hb, nil_append]

/-! ### Soundness -/

/-- The identities below a bound, in order. -/
def TypeId.upTo (n : Nat) : List TypeId :=
  (List.range n).map TypeId.mk

@[simp] theorem TypeId.mem_upTo : id ∈ TypeId.upTo n ↔ id.index < n := by
  simp only [TypeId.upTo, mem_map, mem_range]
  constructor
  · rintro ⟨i, hi, rfl⟩
    exact hi
  · intro h
    exact ⟨id.index, h, rfl⟩

theorem TypeId.upTo_succ (n : Nat) : TypeId.upTo (n + 1) = TypeId.upTo n ++ [⟨n⟩] := by
  rw [TypeId.upTo, range_succ, map_append]
  rfl

/-- The type mentions only named types with the property. -/
def Schema.Over (P : TypeId → Prop) (t : Schema) : Prop :=
  t.Alike (fun a b => a = b ∧ P a) t

/-- A type that is alike to one over a property is so along what has the property. -/
theorem Schema.Alike.over {ρ : Matching} {u : Schema} (h : t.Alike ρ u) :
    u.Over P → t.Alike (fun a b => ρ a b ∧ P b) u := by
  refine Alike.induction ?primitive ?array ?map ?union ?named h
  case primitive => exact fun _ hp _ => ⟨_, rfl, hp⟩
  case array =>
    rintro _ _ _ _ - ih hp ⟨_, _, ⟨⟩, hw, -⟩
    exact ⟨_, _, rfl, ih hw, hp⟩
  case map =>
    rintro _ _ _ _ - ih hp ⟨_, _, ⟨⟩, hw, -⟩
    exact ⟨_, _, rfl, ih hw, hp⟩
  case union =>
    rintro ts us - ih ⟨_, ⟨⟩, hw⟩
    refine ⟨us, rfl, allAlike_iff.mpr ?_⟩
    rw [allAlike_iff, List.forall₂_same] at hw
    induction ih with
    | nil => exact .nil
    | cons hu _ ih =>
      rw [forall_mem_cons] at hw
      exact .cons (hu hw.1) (ih hw.2)
  case named =>
    rintro a b hab ⟨_, ⟨⟩, -, hb⟩
    exact ⟨b, rfl, hab, hb⟩

theorem Schema.Over.and (hp : t.Over P) (hq : t.Over Q) : t.Over fun id => P id ∧ Q id := by
  refine (Alike.over hp hq).mono ?_
  rintro a _ ⟨⟨rfl, hp⟩, hq⟩
  exact ⟨rfl, hp, hq⟩

theorem Schema.Over.mono (h : ∀ id, P id → Q id) (ht : t.Over P) : t.Over Q :=
  Schema.Alike.mono (fun a _ hab => ⟨hab.1, h a hab.2⟩) ht

/-- The identities below a bound. -/
def Matching.below (n : Nat) : Matching :=
  fun a b => a = b ∧ a.index < n

/-- The type mentions only named types below a bound. -/
def Schema.Within (n : Nat) (t : Schema) : Prop :=
  t.Alike (Matching.below n) t

theorem Schema.Within.mono {m : Nat} (h : n ≤ m) (ht : t.Within n) : t.Within m :=
  Schema.Alike.mono (fun _ _ hab => ⟨hab.1, Nat.lt_of_lt_of_le hab.2 h⟩) ht

/-- The key of a branch stays the same when definitions are added. -/
theorem Scope.Grows.branchKey_eq (h : s.Grows s') (ht : t.Within s.catalog.size) :
    t.branchKey s'.catalog = t.branchKey s.catalog := by
  cases t with
  | named id =>
    obtain ⟨_, -, -, hid⟩ := ht
    exact h.fullName id hid
  | primitive | array | map | union => rfl

/-- The definitions of a catalog mention only definitions of the catalog. -/
def Catalog.Closed (c : Catalog) : Prop :=
  ∀ id, id.index < c.size → ∀ f ∈ (c.definition id).body.fields, f.type.Within c.size

/-- The registry asks for every check and leads to the definitions of its names, the catalog is
closed, and no namespace is the empty text. -/
structure Scope.Sound (s : Scope) : Prop where
  checksNames : s.registry.checksNames = true
  checksDefaults : s.registry.checksDefaults = true
  get? : ∀ name id, s.registry.get? name = some id →
    id.index < s.catalog.size ∧ s.catalog.fullName id = name
  closed : s.catalog.Closed
  space : ∀ id, id.index < s.catalog.size → (s.catalog.definition id).space ≠ some ""

theorem Scope.sound_initial : (Scope.initial true true).Sound where
  checksNames := rfl
  checksDefaults := rfl
  get? _ _ h := by cases h
  closed _ h := absurd h (Nat.not_lt_zero _)
  space _ h := absurd h (Nat.not_lt_zero _)

/-- An identity in a catalog with one more definition is an old one or the last. -/
theorem Scope.lt_size_enter (h : id.index < (s.enter d).catalog.size) :
    id.index < s.catalog.size ∨ id = ⟨s.catalog.size⟩ := by
  rw [Scope.size_enter, Nat.lt_succ_iff_lt_or_eq] at h
  refine h.imp_right fun h => ?_
  cases id
  simp_all

/-- What holds of every definition and of a new one holds of every definition after it has been
entered. -/
theorem Scope.enter_induction {P : Definition → Prop}
    (h : ∀ id, id.index < s.catalog.size → P (s.catalog.definition id)) (hd : P d) :
    ∀ id, id.index < (s.enter d).catalog.size → P ((s.enter d).catalog.definition id) := by
  intro id hid
  rcases lt_size_enter hid with hid | rfl
  · rw [definition_enter_of_lt hid]
    exact h id hid
  · rwa [definition_enter_self]

theorem Scope.closed_enter (hs : s.catalog.Closed) (hd : d.body.fields = []) :
    (s.enter d).catalog.Closed := by
  refine enter_induction (P := fun d' => ∀ f ∈ d'.body.fields, f.type.Within _)
    (fun id hid f hf => (hs id hid f hf).mono (by simp)) ?_
  rw [hd]
  exact forall_mem_nil _

theorem Scope.closed_extend (hs : s.catalog.Closed) (id : TypeId)
    (hf : f.type.Within s.catalog.size) : (s.extend id f).catalog.Closed := by
  intro other hid
  rw [size_extend] at hid ⊢
  exact forall_fields_extend (hs other hid) hf

theorem Scope.Sound.enter (hs : s.Sound) (hn : s.registry.contains d.fullName = false)
    (hd : d.body.fields = []) (hspace : d.space ≠ some "") : (s.enter d).Sound where
  checksNames := hs.checksNames
  checksDefaults := hs.checksDefaults
  get? name id h := by
    rw [Scope.enter, Registry.get?_add] at h
    split at h
    · cases h
      simp [Catalog.fullName, *]
    · obtain ⟨hid, hname⟩ := hs.get? name id h
      exact ⟨Nat.lt_of_lt_of_le hid (grows_enter hn).size,
        ((grows_enter hn).fullName id hid).trans hname⟩
  closed := closed_enter hs.closed hd
  space := enter_induction (P := (·.space ≠ some "")) hs.space hspace

theorem Scope.Sound.extend (hs : s.Sound) (id : TypeId) (hf : f.type.Within s.catalog.size) :
    (s.extend id f).Sound where
  checksNames := hs.checksNames
  checksDefaults := hs.checksDefaults
  get? name other h := by
    obtain ⟨hid, hname⟩ := hs.get? name other h
    exact ⟨by simpa using hid, (fullName_extend s id f other).trans hname⟩
  closed := closed_extend hs.closed id hf
  space other hid := by
    rw [size_extend] at hid
    exact extend_induction (P := (·.space ≠ some "")) (hs.space other hid) (by simp)

/-- The named types that a piece mentions are below a bound. -/
def Piece.Within (n : Nat) : Piece → Prop
  | .type t => t.Within n
  | .branches ts => ∀ t ∈ ts, t.Within n
  | .fields _ fs => ∀ f ∈ fs, f.type.Within n

/-- **Laying a piece keeps the state sound**, and leaves every named type it mentions in the
catalog. -/
theorem Lays.sound (h : Lays s p s') (hs : s.Sound) : s'.Sound ∧ p.Within s'.catalog.size := by
  induction h with
  | @primitive s kind props _ => exact ⟨hs, ⟨props, rfl, rfl⟩⟩
  | @array s s' items props _ _ ih => exact ⟨(ih hs).1, ⟨items, props, rfl, (ih hs).2, rfl⟩⟩
  | @map s s' values props _ _ ih => exact ⟨(ih hs).1, ⟨values, props, rfl, (ih hs).2, rfl⟩⟩
  | @union s s' ts _ _ ih =>
    refine ⟨(ih hs).1, ts, rfl, Schema.allAlike_iff.mpr (List.forall₂_same.mpr (ih hs).2)⟩
  | @known s id hid _ => exact ⟨hs, id, rfl, rfl, (hs.get? _ _ hid).1⟩
  | @leaf s d hdecl hn hb =>
    exact ⟨hs.enter hn (Body.fields_eq_nil hb) hdecl.space_ne_empty, _, rfl, rfl, by simp⟩
  | @record s s' d isError fs hdecl hn hb h ih =>
    obtain ⟨hs', -⟩ := ih (hs.enter hn (by rw [hb]; rfl) hdecl.space_ne_empty)
    exact ⟨hs', _, rfl, rfl, Nat.lt_of_lt_of_le (by simp) h.grows.size⟩
  | noBranch => exact ⟨hs, fun t ht => absurd ht not_mem_nil⟩
  | branch _ h' ih ih' =>
    obtain ⟨hs₁, ht⟩ := ih hs
    obtain ⟨hs', hts⟩ := ih' hs₁
    exact ⟨hs', forall_mem_cons.mpr ⟨Schema.Within.mono h'.grows.size ht, hts⟩⟩
  | noField => exact ⟨hs, fun f hf => absurd hf not_mem_nil⟩
  | @field s s₁ s' id f fs _ _ _ h' ih ih' =>
    obtain ⟨hs₁, ht⟩ := ih hs
    obtain ⟨hs', hfs⟩ := ih' (hs₁.extend id ht)
    have hle : s₁.catalog.size ≤ s'.catalog.size := by
      simpa using h'.grows.size
    exact ⟨hs', forall_mem_cons.mpr ⟨Schema.Within.mono hle ht, hfs⟩⟩

end Avroc
