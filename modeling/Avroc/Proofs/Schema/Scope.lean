import Avroc.Proofs.Json.Members
import Avroc.Proofs.Step
import Avroc.Schema.Reader

/-!
# What the steps of reading do

One statement for each step that readers of definitions share: when it succeeds, and the state it
leaves.
-/

namespace Avroc

open List

variable {c : Catalog} {f : Field} {r : Registry} {name : String} {id : TypeId} {u : Unit}
  {space : Option String} {ts : List Schema} {t : Schema} {symbols : List String}

/-! ### Catalogs -/

namespace Catalog

@[simp] theorem size_add (c : Catalog) (d : Definition) : (c.add d).2.size = c.size + 1 := by
  simp [add, size]

@[simp] theorem size_modify (c : Catalog) (id : TypeId) (f : Definition → Definition) :
    (c.modify id f).size = c.size := by
  simp [modify, size]

theorem definition_add_of_lt (h : id.index < c.size) (d : Definition) :
    (c.add d).2.definition id = c.definition id := by
  have h : id.index < c.definitions.length := h
  simp [add, definition, getD_eq_getElem?_getD, getElem?_append_left h]

@[simp] theorem definition_add_self (c : Catalog) (d : Definition) :
    (c.add d).2.definition ⟨c.size⟩ = d := by
  simp [add, definition, size, getD_eq_getElem?_getD]

theorem definition_modify_of_ne {other : TypeId} (h : other ≠ id) (f : Definition → Definition) :
    (c.modify id f).definition other = c.definition other := by
  have h : id.index ≠ other.index := fun e => h (by cases id; cases other; simp_all)
  simp [modify, definition, getD_eq_getElem?_getD, h]

theorem definition_modify_self (h : id.index < c.size) (f : Definition → Definition) :
    (c.modify id f).definition id = f (c.definition id) := by
  have h : id.index < c.definitions.length := h
  simp [modify, definition, getD_eq_getElem?_getD, h]

end Catalog

/-! ### Registries -/

namespace Registry

theorem entries_add (r : Registry) (name : String) (id : TypeId) :
    (r.add name id).entries = putKey name id r.entries := by
  show insertEntry name id r.entries = _
  induction r.entries with
  | nil => rfl
  | cons e entries ih => rw [insertEntry, putKey, ih]

/-- Adding a type sets its full name and leaves the others. -/
@[simp] theorem get?_add (r : Registry) (name key : String) (id : TypeId) :
    (r.add name id).get? key = if key = name then some id else r.get? key := by
  rw [get?, entries_add, lookup_putKey]
  rfl

theorem contains_of_get? {id : TypeId} (h : r.get? name = some id) : r.contains name = true := by
  rw [contains, h]
  rfl

theorem contains_eq_false_iff : r.contains name = false ↔ r.get? name = none := by
  simp [contains]

/-- A type whose full name is new goes to the end. -/
theorem entries_add_of_new (h : r.contains name = false) (id : TypeId) :
    (r.add name id).entries = r.entries ++ [(name, id)] := by
  rw [entries_add]
  refine putKey_of_new fun x hx hk => ?_
  have hx := lookup_eq_none_iff.mp (contains_eq_false_iff.mp h) x hx
  simp [hk] at hx

theorem names_add_of_new (h : r.contains name = false) (id : TypeId) :
    (r.add name id).names = r.names ++ [name] := by
  rw [names, entries_add_of_new h id, map_append]
  rfl

theorem get?_eq_none_iff : r.get? name = none ↔ name ∉ r.names := by
  simp only [get?, names, lookup_eq_none_iff, mem_map, not_exists, not_and]
  constructor
  · rintro h e he rfl
    simpa using h e he
  · intro h e he
    simpa using fun hk => h e he hk.symm

theorem notMem_names_of_new (h : r.contains name = false) : name ∉ r.names :=
  get?_eq_none_iff.mp (contains_eq_false_iff.mp h)

/-- A name leads to a type whose full name it is, or whose full name is the two joined. -/
theorem get?_of_resolve (h : r.resolve name space = some id) :
    ∃ full, r.get? full = some id ∧
      (full = name ∨ ∃ text, space.bind spaceOf = some text ∧ '.' ∉ name.toList ∧
        full = text ++ "." ++ name) := by
  unfold resolve at h
  split at h
  · exact ⟨name, h, .inl rfl⟩
  · rename_i hdot
    split at h
    · rename_i text htext
      rcases Option.or_eq_some_iff.mp h with h | ⟨-, h⟩
      · exact ⟨_, h, .inr ⟨text, htext, by simpa using hdot, rfl⟩⟩
      · exact ⟨name, h, .inl rfl⟩
    · exact ⟨name, h, .inl rfl⟩

theorem mem_names_of_get? (h : r.get? name = some id) : name ∈ r.names := by
  refine Decidable.byContradiction fun hn => ?_
  rw [get?_eq_none_iff.mpr hn] at h
  cases h

end Registry

/-! ### Changes of the state -/

namespace Scope

/-- The state after a definition has been entered. -/
def enter (s : Scope) (d : Definition) : Scope where
  catalog := (s.catalog.add d).2
  registry := s.registry.add d.fullName ⟨s.catalog.size⟩
  log := s.log ++ [⟨.registry, .debug, "Defined type " ++ d.fullName⟩]

/-- The state after a field has been added to a record. -/
def extend (s : Scope) (id : TypeId) (field : Field) : Scope :=
  { s with catalog := s.catalog.modify id (·.addField field) }

end Scope

section
variable {s s' : Scope}

theorem outcome_define (d : Definition) (s : Scope) : outcome (define d) s =
    if s.registry.contains d.fullName then
      (.error (.parse (.redefined d.fullName) none none), s)
    else (.ok ⟨s.catalog.size⟩, s.enter d) := by
  rw [define, outcome_get_bind]
  dsimp only [Catalog.add]
  rw [Registry.define]
  split
  · rename_i heq
    split at heq <;> rename_i hc
    · cases heq
      rw [if_pos hc]
      rfl
    · cases heq
  · rename_i heq
    split at heq <;> rename_i hc
    · cases heq
    · cases heq
      rw [if_neg hc]
      rfl

theorem outcome_addField (id : TypeId) (f : Field) (s : Scope) : outcome (addField id f) s =
    if (s.catalog.definition id).body.fields.any (·.name = f.name) then
      (.error (.parse (.duplicateField f.name (s.catalog.fullName id)) none none), s)
    else (.ok (), s.extend id f) := by
  show outcome (if (s.catalog.definition id).body.fields.any (·.name = f.name) then _ else _) s = _
  split <;> rfl

/-- A definition is entered at the end of the catalog, if its full name is new. -/
theorem yields_define {d : Definition} : Yields (define d) s id s' ↔
    s.registry.contains d.fullName = false ∧ id = ⟨s.catalog.size⟩ ∧ s' = s.enter d := by
  unfold define
  simp only [yields_bind, yields_get]
  constructor
  · rintro ⟨_, _, ⟨rfl, rfl⟩, h⟩
    simp only [Registry.define] at h
    split at h
    · simp at h
    · rename_i hreg
      split at hreg
      · cases hreg
      · rename_i hc
        cases hreg
        simp only [yields_bind, yields_set, yields_pure] at h
        obtain ⟨_, _, rfl, rfl, rfl⟩ := h
        exact ⟨by simpa using hc, rfl, rfl⟩
  · rintro ⟨hc, rfl, rfl⟩
    refine ⟨_, _, ⟨rfl, rfl⟩, ?_⟩
    simp only [Registry.define, hc]
    simp only [Bool.false_eq_true, if_false, yields_bind, yields_set, yields_pure]
    exact ⟨⟨⟩, _, rfl, rfl, rfl⟩

/-- A field is added to a record that has none of its name. -/
theorem yields_addField : Yields (addField id f) s u s' ↔
    (∀ g ∈ (s.catalog.definition id).body.fields, g.name ≠ f.name) ∧ s' = s.extend id f := by
  unfold addField
  simp only [yields_bind, yields_get]
  constructor
  · rintro ⟨_, _, ⟨rfl, rfl⟩, h⟩
    split at h
    · simp at h
    · rename_i hn
      rw [yields_set] at h
      exact ⟨by simpa using hn, h⟩
  · rintro ⟨hn, rfl⟩
    refine ⟨_, _, ⟨rfl, rfl⟩, ?_⟩
    rw [if_neg (by simpa using hn), yields_set]
    rfl

/-! ### Checks -/

theorem yields_checkName : Yields (checkName name) s u s' ↔
    s' = s ∧ (s.registry.checksNames = true → isLegalName name = true) := by
  unfold checkName
  simp only [yields_bind, yields_get]
  constructor
  · rintro ⟨_, _, ⟨rfl, rfl⟩, h⟩
    split at h
    · simp at h
    · rename_i hn
      rw [yields_pure] at h
      exact ⟨h.2, by simpa using hn⟩
  · rintro ⟨rfl, hn⟩
    refine ⟨_, _, ⟨rfl, rfl⟩, ?_⟩
    rw [if_neg (by simpa using hn), yields_pure]
    exact ⟨rfl, rfl⟩

theorem yields_checkNames {names : List String} : Yields (checkNames names) s u s' ↔
    s' = s ∧ (s.registry.checksNames = true → ∀ name ∈ names, isLegalName name = true) := by
  induction names with
  | nil => simp [checkNames]
  | cons name names ih =>
    simp only [checkNames, yields_bind, yields_checkName]
    constructor
    · rintro ⟨_, _, ⟨rfl, hn⟩, h⟩
      obtain ⟨rfl, hns⟩ := ih.mp h
      exact ⟨rfl, fun hc => forall_mem_cons.mpr ⟨hn hc, hns hc⟩⟩
    · rintro ⟨rfl, h⟩
      refine ⟨⟨⟩, _, ⟨rfl, fun hc => h hc _ mem_cons_self⟩, ih.mpr ⟨rfl, ?_⟩⟩
      exact fun hc n hn => h hc n (mem_cons_of_mem _ hn)

/-- A namespace is one of whose parts every one is legal. -/
def LegalSpace (space : Option String) : Prop :=
  ∀ text ∈ space, ∀ part ∈ Text.splitString '.' text, isLegalName part = true

theorem yields_checkSpace : Yields (checkSpace space) s u s' ↔
    s' = s ∧ (s.registry.checksNames = true → LegalSpace space) := by
  cases space with
  | none => simp [checkSpace, LegalSpace]
  | some text => simp [checkSpace, yields_checkNames, LegalSpace]

theorem yields_checkDefault : Yields (checkDefault f) s u s' ↔
    s' = s ∧ ∀ v ∈ f.default, s.registry.checksDefaults = true →
      v.fits s.catalog f.type = true := by
  unfold checkDefault
  cases f.default with
  | none => simp
  | some value =>
    simp only [yields_bind, yields_get]
    constructor
    · rintro ⟨_, _, ⟨rfl, rfl⟩, h⟩
      split at h
      · simp at h
      · rename_i hv
        rw [yields_pure] at h
        refine ⟨h.2, ?_⟩
        rintro v ⟨⟩ hc
        simpa [hc] using hv
    · rintro ⟨rfl, hv⟩
      refine ⟨_, _, ⟨rfl, rfl⟩, ?_⟩
      rw [if_neg, yields_pure]
      · exact ⟨rfl, rfl⟩
      · have := hv value rfl
        cases hc : s'.registry.checksDefaults <;> simp_all

theorem yields_makeField {g : Field} : Yields (makeField f) s g s' ↔
    g = f ∧ Yields (checkDefault f) s () s' := by
  simp only [makeField, yields_bind, yields_pure]
  constructor
  · rintro ⟨_, _, h, rfl, rfl⟩
    exact ⟨rfl, h⟩
  · rintro ⟨rfl, h⟩
    exact ⟨_, _, h, rfl, rfl⟩

theorem yields_checkBranches {keys : List String} :
    Yields (checkBranches keys ts) s u s' ↔ s' = s ∧ (∀ t ∈ ts, t.isUnion = false) ∧
      (ts.map (·.branchKey s.catalog)).Nodup ∧ ∀ t ∈ ts, t.branchKey s.catalog ∉ keys := by
  induction ts generalizing keys with
  | nil => simp [checkBranches]
  | cons t ts ih =>
    simp only [checkBranches]
    constructor
    · intro h
      split at h
      · simp at h
      · rename_i hu
        simp only [yields_bind, yields_get] at h
        obtain ⟨_, _, ⟨rfl, rfl⟩, h⟩ := h
        split at h
        · simp at h
        · rename_i hk
          obtain ⟨rfl, hus, hnd, hks⟩ := ih.mp h
          simp only [mem_append, mem_singleton, not_or] at hks
          refine ⟨rfl, forall_mem_cons.mpr ⟨by simpa using hu, hus⟩, ?_,
            forall_mem_cons.mpr ⟨by simpa using hk, fun t ht => (hks t ht).1⟩⟩
          refine nodup_cons.mpr ⟨?_, hnd⟩
          rw [mem_map]
          rintro ⟨t', ht', he⟩
          exact (hks t' ht').2 he
    · rintro ⟨rfl, hus, hnd, hks⟩
      obtain ⟨hu, hus⟩ := forall_mem_cons.mp hus
      obtain ⟨hk, hks⟩ := forall_mem_cons.mp hks
      obtain ⟨hm, hnd⟩ := nodup_cons.mp hnd
      rw [if_neg (by simp [hu])]
      simp only [yields_bind, yields_get]
      refine ⟨_, _, ⟨rfl, rfl⟩, ?_⟩
      rw [if_neg (by simpa using hk)]
      refine ih.mpr ⟨rfl, hus, hnd, fun t ht => ?_⟩
      simp only [mem_append, mem_singleton, not_or]
      exact ⟨hks t ht, fun he => hm (mem_map.mpr ⟨t, ht, he⟩)⟩

theorem yields_makeUnion : Yields (makeUnion ts) s t s' ↔
    t = .union ts ∧ Yields (checkBranches [] ts) s () s' := by
  simp only [makeUnion, yields_bind, yields_pure]
  constructor
  · rintro ⟨_, _, h, rfl, rfl⟩
    exact ⟨rfl, h⟩
  · rintro ⟨rfl, h⟩
    exact ⟨_, _, h, rfl, rfl⟩

/-- The symbols of an enum are texts, legal as names and pairwise different. -/
theorem yields_checkSymbols {seen : List String} {items : List Json} :
    Yields (checkSymbols seen items) s symbols s' ↔ s' = s ∧ ∃ texts, items = texts.map .string ∧
      symbols = seen ++ texts ∧ texts.Nodup ∧ (∀ t ∈ texts, t ∉ seen) ∧
      (s.registry.checksNames = true → ∀ t ∈ texts, isLegalName t = true) := by
  induction items generalizing seen with
  | nil =>
    simp only [checkSymbols, yields_pure]
    constructor
    · rintro ⟨rfl, rfl⟩
      exact ⟨rfl, [], by simp⟩
    · rintro ⟨rfl, texts, ht, rfl, -⟩
      obtain rfl : texts = [] := map_eq_nil_iff.mp ht.symm
      simp
  | cons v items ih =>
    cases v
    case string symbol =>
      simp only [checkSymbols, yields_bind, yields_checkName]
      constructor
      · rintro ⟨_, _, ⟨rfl, hl⟩, h⟩
        split at h
        · simp at h
        · rename_i hs
          obtain ⟨rfl, texts, rfl, rfl, hnd, hseen, hls⟩ := ih.mp h
          simp only [mem_append, mem_singleton, not_or] at hseen
          refine ⟨rfl, symbol :: texts, rfl, by simp, ?_, ?_, ?_⟩
          · exact nodup_cons.mpr ⟨fun hm => (hseen _ hm).2 rfl, hnd⟩
          · exact forall_mem_cons.mpr ⟨by simpa using hs, fun t ht => (hseen t ht).1⟩
          · exact fun hc => forall_mem_cons.mpr ⟨hl hc, hls hc⟩
      · rintro ⟨rfl, texts, ht, rfl, hnd, hseen, hls⟩
        obtain ⟨t, texts, rfl, hv, rfl⟩ := map_eq_cons_iff.mp ht.symm
        cases hv
        obtain ⟨hm, hnd⟩ := nodup_cons.mp hnd
        obtain ⟨hs, hseen⟩ := forall_mem_cons.mp hseen
        refine ⟨(), _, ⟨rfl, fun hc => hls hc _ mem_cons_self⟩, ?_⟩
        rw [if_neg (by simpa using hs)]
        refine ih.mpr ⟨rfl, texts, rfl, by simp, hnd, fun t' ht' => ?_,
          fun hc t' ht' => hls hc t' (mem_cons_of_mem _ ht')⟩
        simp only [mem_append, mem_singleton, not_or]
        exact ⟨hseen t' ht', fun he => hm (he ▸ ht')⟩
    all_goals
      simp only [checkSymbols, not_yields_refuse, false_iff]
      rintro ⟨rfl, texts, ht, -⟩
      obtain ⟨t, texts, rfl, hv, -⟩ := map_eq_cons_iff.mp ht.symm
      cases hv

/-- The default of an enum is one of its symbols, or there is none. -/
theorem yields_checkEnumDefault {v : Json} {default : Option String} :
    Yields (checkEnumDefault symbols v) s default s' ↔
      s' = s ∧ v = (default.map Json.string).getD .null ∧ ∀ t ∈ default, t ∈ symbols := by
  cases v
  case null =>
    simp only [checkEnumDefault, yields_pure]
    constructor
    · rintro ⟨rfl, rfl⟩
      simp
    · rintro ⟨rfl, hv, -⟩
      cases default with
      | none => simp
      | some t => cases hv
  case string t =>
    simp only [checkEnumDefault]
    constructor
    · intro h
      split at h
      · rename_i ht
        rw [yields_pure] at h
        obtain ⟨rfl, rfl⟩ := h
        simpa using ht
      · simp at h
    · rintro ⟨rfl, hv, ht⟩
      cases default with
      | none => cases hv
      | some t' =>
        cases hv
        rw [if_pos (by simpa using ht), yields_pure]
        exact ⟨rfl, rfl⟩
  all_goals
    simp only [checkEnumDefault, not_yields_refuse, false_iff]
    rintro ⟨rfl, hv, -⟩
    cases default <;> cases hv

theorem yields_checkErrorType : Yields (checkErrorType t) s id s' ↔
    s' = s ∧ t = .named id ∧ ∃ fields, (s.catalog.definition id).body = .record true fields := by
  cases t
  case named id' =>
    simp only [checkErrorType, yields_bind, yields_get]
    constructor
    · rintro ⟨_, _, ⟨rfl, rfl⟩, h⟩
      split at h
      · rename_i fields hb
        rw [yields_pure] at h
        obtain ⟨rfl, rfl⟩ := h
        exact ⟨rfl, rfl, fields, hb⟩
      · simp at h
    · rintro ⟨rfl, hid, fields, hb⟩
      cases hid
      refine ⟨_, _, ⟨rfl, rfl⟩, ?_⟩
      rw [hb]
      simp
  all_goals simp [checkErrorType]

end

end Avroc
