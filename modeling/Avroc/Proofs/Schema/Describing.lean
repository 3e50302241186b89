import Avroc.Proofs.Schema.Growth
import Avroc.Proofs.Schema.Reading

/-!
# Types as documents describe them

A type that has been read has the form of its document, with a type in the place of every name that
the document refers to.  What a name stands for is left open: it is a type that some registry on
the way from the state before reading to the state after leads to.

* `describes_of_readSchema` : **reading gives a type that the document describes.**
-/

namespace Avroc

open List

variable {c : Catalog} {v : Json} {items : List Json} {ms : Members} {r : Registry} {t : Schema}
  {s s' s₁ : Scope} {around space : Space} {name word : String} {id : TypeId} {d : Definition}
  {f : Field}

/-- The document, written inside a namespace, describes the type.  Its definitions are in the
registry under their full names, and every name that it refers to stands for a type that the name
may stand for in the namespace around it. -/
inductive Describes (c : Catalog) (r : Registry) (refers : String → Option String → TypeId → Prop) :
    Json → Space → Schema → Prop
  | primitive {n : String} {kind : Primitive} {space : Space} :
      Primitive.ofName? n = some kind → Describes c r refers (.string n) space (.plain kind)
  | reference {n : String} {space : Space} {id : TypeId} :
      Primitive.ofName? n = none → refers n space.text? id →
      Describes c r refers (.string n) space (.named id)
  | union {items : List Json} {space : Space} {branches : List Schema} :
      branches.length = items.length →
      (∀ (i : Nat) v t, items[i]? = some v → branches[i]? = some t →
        Describes c r refers v space t) →
      Describes c r refers (.array items) space (.union branches)
  | attributed {members : Members} {n : String} {kind : Primitive} {space : Space} :
      members.get? "type" = some (.string n) → Primitive.ofName? n = some kind →
      Describes c r refers (.object members) space
        (.primitive kind (members.without typeAttributes))
  | type {members : Members} {v : Json} {space : Space} {t : Schema} :
      members.get? "type" = some v → (∀ word ∈ kindWords, v ≠ .string word) →
      Describes c r refers v space t → Describes c r refers (.object members) space t
  | array {members : Members} {v : Json} {space : Space} {t : Schema} :
      members.get? "type" = some (.string "array") → members.get? "items" = some v →
      Describes c r refers v space t →
      Describes c r refers (.object members) space (.array t (members.without typeAttributes))
  | map {members : Members} {v : Json} {space : Space} {t : Schema} :
      members.get? "type" = some (.string "map") → members.get? "values" = some v →
      Describes c r refers v space t →
      Describes c r refers (.object members) space (.map t (members.without typeAttributes))
  | leaf {members : Members} {word name : String} {space : Space} {inside : Option String}
      {id : TypeId} :
      members.get? "type" = some (.string word) → word ∈ ["enum", "fixed"] →
      definedName? members space = some (name, inside) →
      r.get? (joinName name inside) = some id →
      Describes c r refers (.object members) space (.named id)
  | record {members : Members} {word name : String} {space : Space} {inside : Option String}
      {items : List Json} {id : TypeId} :
      members.get? "type" = some (.string word) → word ∈ ["record", "error"] →
      definedName? members space = some (name, inside) →
      members.get? "fields" = some (.array items) →
      r.get? (joinName name inside) = some id →
      (c.definition id).body.fields.length = items.length →
      (∀ item ∈ items, ∃ (field : Members) (v : Json), item = .object field ∧
        field.get? "type" = some v) →
      (∀ (i : Nat) (field : Members) v f, items[i]? = some (.object field) →
        field.get? "type" = some v → (c.definition id).body.fields[i]? = some f →
        Describes c r refers v (.ofName inside) f.type) →
      Describes c r refers (.object members) space (.named id)

/-- Names may stand for more types. -/
theorem Describes.imp {refers refers' : String → Option String → TypeId → Prop}
    (h : ∀ name space id, refers name space id → refers' name space id)
    (hd : Describes c r refers v space t) : Describes c r refers' v space t := by
  induction hd with
  | primitive hn => exact .primitive hn
  | reference hn hr => exact .reference hn (h _ _ _ hr)
  | union hlen _ ih => exact .union hlen ih
  | attributed ht hn => exact .attributed ht hn
  | type ht hword _ ih => exact .type ht hword ih
  | array ht hv _ ih => exact .array ht hv ih
  | map ht hv _ ih => exact .map ht hv ih
  | leaf ht hword hname hid => exact .leaf ht hword hname hid
  | record ht hword hname hfields hid hlen hitems _ ih =>
    exact .record ht hword hname hfields hid hlen hitems ih

namespace Scope

/-! ### What reading leaves as it was -/

/-- The second state has all that the first one has, apart from some definitions. -/
structure Keeps (but : TypeId → Prop) (s s' : Scope) : Prop where
  size : s.catalog.size ≤ s'.catalog.size
  definition : ∀ id, id.index < s.catalog.size → ¬ but id →
    s'.catalog.definition id = s.catalog.definition id
  entries : s.registry.entries <+: s'.registry.entries

variable {but but' : TypeId → Prop} {s₂ : Scope}

theorem Keeps.refl (but : TypeId → Prop) (s : Scope) : s.Keeps but s :=
  ⟨Nat.le_refl _, fun _ _ _ => rfl, prefix_refl _⟩

theorem Keeps.trans (h : s.Keeps but s₁) (h' : s₁.Keeps but s') : s.Keeps but s' where
  size := Nat.le_trans h.size h'.size
  definition id hid hb :=
    (h'.definition id (Nat.lt_of_lt_of_le hid h.size) hb).trans (h.definition id hid hb)
  entries := h.entries.trans h'.entries

/-- Definitions that are not there yet need no exception. -/
theorem Keeps.weaken (h : s.Keeps but s')
    (himp : ∀ id, id.index < s.catalog.size → but id → but' id) : s.Keeps but' s' :=
  ⟨h.size, fun id hid hb => h.definition id hid fun hbut => hb (himp id hid hbut), h.entries⟩

theorem keeps_enter (h : s.registry.contains d.fullName = false) :
    s.Keeps but (s.enter d) := by
  refine ⟨by simp, fun id hid _ => definition_enter_of_lt hid d, ?_⟩
  rw [Scope.enter, Registry.entries_add_of_new h]
  exact prefix_append _ _

theorem keeps_extend (s : Scope) (id : TypeId) (f : Field) : s.Keeps (· = id) (s.extend id f) :=
  ⟨by simp, fun _ _ hne => definition_extend_of_ne hne s f, prefix_refl _⟩

/-- What was entered between the two states is, in a catalog and a registry, as it was in the
second state. -/
structure HeldIn (s s' : Scope) (c : Catalog) (r : Registry) : Prop where
  definition : ∀ id : TypeId, s.catalog.size ≤ id.index → id.index < s'.catalog.size →
    c.definition id = s'.catalog.definition id
  entries : s'.registry.entries <+: r.entries

/-- What was entered on the way is held, if only older definitions were changed afterwards. -/
theorem HeldIn.inner (h : s.HeldIn s' c r) (hsize : s.catalog.size ≤ s₁.catalog.size)
    (hkeeps : s₂.Keeps but s') (hbut : ∀ id, but id → id.index < s₁.catalog.size) :
    s₁.HeldIn s₂ c r where
  definition id hle hlt :=
    (h.definition id (Nat.le_trans hsize hle) (Nat.lt_of_lt_of_le hlt hkeeps.size)).trans
      (hkeeps.definition id hlt fun hb => Nat.not_lt.mpr hle (hbut id hb))
  entries := hkeeps.entries.trans h.entries

/-- A registry on the way leads from the name, written inside the namespace, to the type. -/
def Sees (s s' : Scope) (name : String) (space : Option String) (id : TypeId) : Prop :=
  ∃ r : Registry, s.registry.entries <+: r.entries ∧ r.entries <+: s'.registry.entries ∧
    r.resolve name space = some id

theorem Sees.outer {space : Option String} (h : s₁.Sees s₂ name space id)
    (hs : s.registry.entries <+: s₁.registry.entries)
    (hs' : s₂.registry.entries <+: s'.registry.entries) : s.Sees s' name space id := by
  obtain ⟨r, hr, hr', hid⟩ := h
  exact ⟨r, hs.trans hr, hr'.trans hs', hid⟩

end Scope

/-! ### Reading -/

/-- The type is described by the document with what names led to on the way, wherever what was
entered on the way is held. -/
def ReadAs (v : Json) (space : Space) (s : Scope) (t : Schema) (s' : Scope) : Prop :=
  s.Keeps (fun _ => False) s' ∧
    ∀ c r, s.HeldIn s' c r → Describes c r (s.Sees s') v space t

/-- The fields are described by the items of a document. -/
structure FieldsReadAs (items : List Json) (space : Space) (id : TypeId) (s s' : Scope) : Prop where
  keeps : s.Keeps (· = id) s'
  objects : ∀ item ∈ items, ∃ (field : Members) (v : Json), item = .object field ∧
    field.get? "type" = some v
  fields : ∀ isError old, (s.catalog.definition id).body = .record isError old →
    ∃ new, (s'.catalog.definition id).body = .record isError (old ++ new) ∧
      new.length = items.length ∧
      ∀ c r, s.HeldIn s' c r → ∀ (i : Nat) (field : Members) v f,
        items[i]? = some (.object field) → field.get? "type" = some v → new[i]? = some f →
        Describes c r (s.Sees s') v space f.type

/-- A field of a document is read. -/
def FieldReadAs (v : Json) (space : Space) (s : Scope) (f : Field) (s' : Scope) : Prop :=
  ∃ (members : Members) (type : Json), v = .object members ∧ members.get? "type" = some type ∧
    ReadAs type space s f.type s'

theorem FieldsReadAs.nil (space : Space) : FieldsReadAs [] space id s s where
  keeps := .refl _ _
  objects := forall_mem_nil _
  fields isError old hbody := by
    refine ⟨[], by rw [hbody, append_nil], rfl, ?_⟩
    intro c r _ i field v f hi
    simp at hi

/-- One more field is read before the others. -/
theorem FieldsReadAs.cons (hid : id.index < s.catalog.size) (hf : FieldReadAs v space s f s₁)
    (hrest : FieldsReadAs items space id (s₁.extend id f) s') :
    FieldsReadAs (v :: items) space id s s' := by
  obtain ⟨members, type, rfl, htype, hkeeps, hdescribes⟩ := hf
  have hid₁ : id.index < s₁.catalog.size := Nat.lt_of_lt_of_le hid hkeeps.size
  -- after the first field only the record itself is changed
  have hafter : s₁.Keeps (· = id) s' := (s₁.keeps_extend id f).trans hrest.keeps
  refine ⟨(hkeeps.weaken fun _ _ hf => hf.elim).trans hafter,
    forall_mem_cons.mpr ⟨⟨members, type, rfl, htype⟩, hrest.objects⟩,
    fun isError old hbody => ?_⟩
  have hbody₁ : ((s₁.extend id f).catalog.definition id).body = .record isError (old ++ [f]) := by
    have hsame : s₁.catalog.definition id = s.catalog.definition id :=
      hkeeps.definition id hid fun hf => hf
    rw [Scope.definition_extend_self hid₁, Definition.addField, hsame, hbody]
  obtain ⟨new, hnew, hlen, hfields⟩ := hrest.fields isError _ hbody₁
  refine ⟨f :: new, by rw [hnew, append_assoc, singleton_append],
    congrArg Nat.succ hlen, fun c r hheld i field w g hi hw hg => ?_⟩
  cases i with
  | zero =>
    cases hi
    cases hg
    cases htype.symm.trans hw
    have hfirst := hdescribes c r (hheld.inner (Nat.le_refl _) hafter fun _ hi => hi ▸ hid)
    exact hfirst.imp fun _ _ _ hsee => hsee.outer (prefix_refl _) hafter.entries
  | succ i =>
    have hsize : s.catalog.size ≤ (s₁.extend id f).catalog.size :=
      Nat.le_trans hkeeps.size (by simp)
    have hlater := hfields c r (hheld.inner hsize (Scope.Keeps.refl (fun _ => False) s')
      fun _ hf => hf.elim) i field w g hi hw hg
    exact hlater.imp fun _ _ _ hsee => hsee.outer hkeeps.entries (prefix_refl _)

/-- A record is entered, and then completed. -/
theorem readAs_record {isError : Bool} (ht : ms.get? "type" = some (.string word))
    (hword : word ∈ ["record", "error"]) (hd : Defines ms around s d)
    (hentered : d.body = .record isError []) (hl : ms.get? "fields" = some (.array items))
    (hread : FieldsReadAs items (.ofName d.space) ⟨s.catalog.size⟩ (s.enter d) s') :
    ReadAs (.object ms) around s (.named ⟨s.catalog.size⟩) s' := by
  have henter : s.Keeps (· = ⟨s.catalog.size⟩) _ := Scope.keeps_enter hd.new
  obtain ⟨fs, hbody, hlen, hdescribes⟩ := hread.fields isError []
    (by rw [Scope.definition_enter_self, hentered])
  refine ⟨(henter.trans hread.keeps).weaken fun id hid he => ?_, fun c r hheld => ?_⟩
  · rw [he] at hid
    exact Nat.lt_irrefl _ hid
  · have hlt : s.catalog.size < s'.catalog.size :=
      Nat.lt_of_lt_of_le (by simp) hread.keeps.size
    have hcbody : (c.definition ⟨s.catalog.size⟩).body.fields = fs := by
      rw [hheld.definition ⟨s.catalog.size⟩ (Nat.le_refl _) hlt, hbody]
      rfl
    have hget : r.get? d.fullName = some ⟨s.catalog.size⟩ := by
      refine Registry.get?_of_prefix (hread.keeps.entries.trans hheld.entries) ?_
      rw [Scope.enter, Registry.get?_add]
      exact if_pos rfl
    refine .record ht hword (definedName?_of_readName hd.name) hl hget (by rw [hcbody, hlen])
      hread.objects fun i field v f hi hv hf => ?_
    rw [hcbody] at hf
    have hinner := hheld.inner henter.size (Scope.Keeps.refl (fun _ => False) s')
      fun _ hf => hf.elim
    exact (hdescribes c r hinner i field v f hi hv hf).imp
      fun _ _ _ hsee => hsee.outer henter.entries (prefix_refl _)

/-- The branches are described by the items of a document. -/
def BranchesReadAs (items : List Json) (space : Space) (s : Scope) (ts : List Schema) (s' : Scope) :
    Prop :=
  s.Keeps (fun _ => False) s' ∧ ts.length = items.length ∧
    ∀ c r, s.HeldIn s' c r → ∀ (i : Nat) v t, items[i]? = some v → ts[i]? = some t →
      Describes c r (s.Sees s') v space t

theorem BranchesReadAs.cons {ts : List Schema} (ht : ReadAs v space s t s₁)
    (hts : BranchesReadAs items space s₁ ts s') :
    BranchesReadAs (v :: items) space s (t :: ts) s' := by
  obtain ⟨hkeeps, hdescribes⟩ := ht
  obtain ⟨hrest, hlen, hbranches⟩ := hts
  refine ⟨hkeeps.trans hrest, congrArg Nat.succ hlen, fun c r hheld i w u hi hu => ?_⟩
  cases i with
  | zero =>
    cases hi
    cases hu
    have hfirst := hdescribes c r (hheld.inner (Nat.le_refl _) hrest fun _ hf => hf.elim)
    exact hfirst.imp fun _ _ _ hsee => hsee.outer (prefix_refl _) hrest.entries
  | succ i =>
    have hlater := hbranches c r (hheld.inner hkeeps.size
      (Scope.Keeps.refl (fun _ => False) _) fun _ hf => hf.elim) i w u hi hu
    exact hlater.imp fun _ _ _ hsee => hsee.outer hkeeps.entries (prefix_refl _)

/-- What a document describes when it is read. -/
def describing : Account where
  value _ := True
  rel _ _ := True
  error _ := True
  type := ReadAs
  branches := BranchesReadAs
  field := FieldReadAs
  record d vs s s₁ := s.catalog.size < s₁.catalog.size ∧
    ∀ items s', FieldsReadAs items (.ofName d.space) ⟨s.catalog.size⟩ s₁ s' →
      FieldsReadAs (vs ++ items) (.ofName d.space) ⟨s.catalog.size⟩ (s.enter d) s'
  item _ _ _ := trivial
  member _ _ _ := trivial
  next _ := trivial
  trans _ _ := trivial
  refused _ _ _ := trivial
  order _ _ _ := trivial
  document _ _ := trivial
  primitive hkind := ⟨.refl _ _, fun _ _ _ => .primitive hkind⟩
  reference _ hprim hid := ⟨.refl _ _, fun _ _ _ => .reference hprim
    ⟨_, prefix_refl _, prefix_refl _, hid⟩⟩
  attributed _ ht hkind := ⟨.refl _ _, fun _ _ _ => .attributed ht hkind⟩
  inner ht hword h := ⟨h.1, fun c r hheld => .type ht hword (h.2 c r hheld)⟩
  array ht hv h := ⟨h.1, fun c r hheld => .array ht hv (h.2 c r hheld)⟩
  map ht hv h := ⟨h.1, fun c r hheld => .map ht hv (h.2 c r hheld)⟩
  noBranch := ⟨.refl _ _, rfl, fun _ _ _ i _ _ hi => by simp at hi⟩
  branch ht _ hts := .cons ht hts
  union h hu := by
    obtain ⟨rfl, -⟩ := yields_makeUnion.mp hu
    exact ⟨h.1, fun c r hheld => .union h.2.1 (h.2.2 c r hheld)⟩
  leaf ht hword _ h := by
    obtain ⟨d, hd, -, -, -, rfl, rfl⟩ := h
    refine ⟨trivial, Scope.keeps_enter hd.new, fun c r hheld =>
      .leaf ht hword (definedName?_of_readName hd.name) ?_⟩
    refine Registry.get?_of_prefix hheld.entries ?_
    rw [Scope.enter, Registry.get?_add]
    exact if_pos rfl
  enter _ _ _ := ⟨trivial, by simp, fun _ _ h => h⟩
  extend _ hd _ hf _ := by
    refine ⟨trivial, ?_, fun items s' h => ?_⟩
    · obtain ⟨_, _, -, -, hkeeps, -⟩ := hf
      simpa using Nat.lt_of_lt_of_le hd.1 hkeeps.size
    · rw [append_assoc]
      exact hd.2 _ _ (.cons hd.1 hf h)
  complete ht hword hd hb hl _ h :=
    readAs_record ht hword hd hb hl (by simpa using h.2 [] _ (.nil _))
  declare ht h _ _ := ⟨_, _, rfl, ht, h⟩

/-- **Reading gives a type that the document describes**, with names that stand for what they led
to on the way. -/
theorem describes_of_readSchema (h : Yields (readSchema v space) s t s') (hheld : s.HeldIn s' c r) :
    Describes c r (s.Sees s') v space t :=
  (((describing.reads trivial).type trivial).toLeads.of_yields h).2.2 c r hheld

end Avroc
