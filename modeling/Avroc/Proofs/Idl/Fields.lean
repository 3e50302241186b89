import Avroc.Proofs.Idl.Types

/-!
# Fields in the definition language

A declaration gives one type to several variables, and its fields join the record together, after
all of them have been checked.  A reader of documents checks each field after the ones before it
have joined.  The two agree when the declaration is of one field only, or when its type does not
reach the record: then the fields that have joined cannot matter to the check.

* `follows_declarator`, `follows_fieldDeclaration` : a declaration has an outline, and its fields
  can be laid.
* `Building.addFields` : the fields of a declaration are laid one by one.
-/

namespace Avroc

open List

variable {f : Field} {fs : List Field} {outer space : Option String} {s s' : Scope} {id : TypeId}
  {d : Definition} {o : TypeOutline}

theorem Scope.Ready.enter (hs : s.Ready) (hnew : s.registry.contains d.fullName = false)
    (hd : d.Declarable) (hfields : d.body.fields = []) (hspaced : d.Spaced) :
    (s.enter d).Ready where
  sound := hs.sound.enter hnew hfields hd.space_ne_empty
  complete := hs.complete.enter hnew
  spaced := Scope.enter_induction hs.spaced hspaced

theorem Scope.Ready.extend (hs : s.Ready) (id : TypeId) (hf : f.type.Within s.catalog.size) :
    (s.extend id f).Ready where
  sound := hs.sound.extend id hf
  complete := hs.complete.extend id f
  spaced other hother := by
    rw [Scope.size_extend] at hother
    refine Scope.extend_induction (hs.spaced other hother) fun d hd => ?_
    rwa [Definition.Spaced, Definition.addField_space]

theorem Lays.fields_append {s₁ : Scope} {gs : List Field} (h : Lays s (.fields id fs) s₁)
    (h' : Lays s₁ (.fields id gs) s') : Lays s (.fields id (fs ++ gs)) s' := by
  induction fs generalizing s with
  | nil =>
    cases h
    exact h'
  | cons f fs ih =>
    cases h with
    | field ht hf hn h => exact .field ht hf hn (ih h)

namespace Idl

/-- The field passes its checks in the state, and its type can be laid there. -/
structure Declares (outer space : Option String) (s : Scope) (o : TypeOutline) (f : Field) :
    Prop where
  denotes : Denotes outer space s o f.type
  declarable : f.Declarable s.catalog

/-! ### Variables -/

theorem variableType_eq (e : TypeExpr) (default : Option Json) :
    variableType e default = e.type ∨ e.optional = true ∧ ∃ ts, e.type = .union ts ∧
      variableType e default = .union ts.reverse := by
  unfold variableType
  split
  · rename_i htype
    exact .inl htype.symm
  · rename_i hoptional htype
    exact .inr ⟨hoptional, _, htype, rfl⟩
  · exact .inl rfl

/-- The branches of an optional type may be turned round. -/
theorem Denotes.turned {u : Schema} (h : Denotes outer space s o (.union [.plain .null, u])) :
    Denotes outer space s o (.union [u, .plain .null]) := by
  have hnull : Lays s (.type (.plain .null)) s :=
    .primitive fun m hm => absurd hm not_mem_nil
  refine ⟨?_, fun n hn => ?_⟩
  · obtain ⟨hlays, -⟩ := h
    cases hlays with
    | union hb hcheck =>
      obtain ⟨-, hunion, hkeys, -⟩ := yields_checkBranches.mp hcheck
      have hu : Lays s (.type u) s := by
        cases hb with
        | branch h₁ h₂ =>
          cases h₁
          cases h₂ with
          | branch h₁ h₂ =>
            cases h₂
            exact h₁
      refine .union (.branch hu (.branch hnull .noBranch)) (yields_checkBranches.mpr
        ⟨rfl, ?_, ?_, fun _ _ => not_mem_nil⟩)
      · intro t ht
        exact hunion t (by simpa [or_comm] using ht)
      · simpa [eq_comm] using hkeys
  · obtain ⟨ts, he, hts⟩ := h.within n hn
    cases he
    refine ⟨_, rfl, Schema.allAlike_iff.mpr (List.forall₂_same.mpr fun t ht => ?_)⟩
    refine List.forall₂_same.mp (Schema.allAlike_iff.mp hts) t ?_
    simpa [or_comm] using ht

/-- The type of a variable denotes what the type of its declaration does. -/
theorem Expresses.variableType {e : TypeExpr} (h : Expresses outer space s o e)
    (default : Option Json) : Denotes outer space s o (variableType e default) := by
  rcases variableType_eq e default with he | ⟨hoptional, ts, hts, he⟩
  · rw [he]
    exact h.denotes
  · obtain ⟨u, hu⟩ := h.optional hoptional
    have hd := h.denotes
    rw [hu] at hd
    obtain rfl : ts = [.plain .null, u] := by
      rw [hts] at hu
      exact Schema.union.inj hu
    rw [he]
    exact hd.turned

/-- A variable without properties declares a field. -/
def ReadsVariable (outer space : Option String) (o : TypeOutline) (e : TypeExpr) (extra : Members)
    (s : Scope) (f : Field) (props : Members) : Prop :=
  s.Ready → props = [] → extra = [] → Expresses outer space s o e → Declares outer space s o f

/-- A variable has an outline, and its field passes the checks. -/
theorem follows_declarator (outer space : Option String) (o : TypeOutline) (e : TypeExpr)
    (doc : Option String) (extra : Members) :
    Follows declaratorOutline (declarator e doc extra)
      (Quiet (ReadsVariable outer space o e extra)) := by
  intro c f c' h
  simp only [declarator, yields_bind] at h
  obtain ⟨props, c₁, h₁, token, c₂, h₂, name, c₃, h₃, _, c₄, h₄, default, c₅, h₅, h⟩ := h
  obtain ⟨ts₁, rfl, hr₁⟩ := textual_properties.reads h₁
  obtain ⟨rfl, hr₂⟩ := looks_peek.reads h₂
  obtain ⟨ts₃, rfl, hr₃⟩ := textual_simpleIdentifier.reads h₃
  obtain ⟨s₄, hname, rfl⟩ := yields_locating.mp h₄
  obtain ⟨rfl, hlegal⟩ := yields_checkName.mp hname
  obtain ⟨ts₅, rfl, hr₅⟩ := textual_defaultValue.reads h₅
  obtain ⟨s₆, hfield, rfl⟩ := yields_locating.mp h
  obtain ⟨rfl, hdefault⟩ := yields_makeField.mp hfield
  obtain ⟨rfl, hfits⟩ := yields_checkDefault.mp hdefault
  refine ⟨props, hr₁.bind (hr₃.discard.bind (hr₅.discard.bind (Reads.pure _ _))), rfl, ?_⟩
  rintro hs rfl rfl he
  exact ⟨he.variableType default, {
    name := hlegal hs.sound.checksNames
    order := .inl rfl
    aliases := ⟨[], rfl, rfl⟩
    props := fun m hm => absurd hm not_mem_nil
    default := fun v hv => hfits v hv hs.sound.checksDefaults }⟩

/-! ### Declarations -/

/-- A declaration without properties declares a field for each variable. -/
def ReadsFields (outer space : Option String) (s : Scope) (fs : List Field) (o : FieldOutline) :
    Prop :=
  fs.length = o.arity ∧
    (s.Ready → o.props = [] → ∀ f ∈ fs, Declares outer space s ⟨[], o.mentions⟩ f)

theorem follows_fieldDeclaration (outer space : Option String) :
    Follows fieldOutline (fieldDeclaration outer space) (Quiet (ReadsFields outer space)) := by
  intro c fs c' h
  simp only [fieldDeclaration, yields_bind, yields_pure] at h
  obtain ⟨first, c₀, h₀, props, c₁, h₁, e, c₂, h₂, gs, c₃, h₃, _, c₄, h₄, rfl, rfl⟩ := h
  obtain ⟨rfl, -⟩ := looks_peek.reads h₀
  obtain ⟨ts₁, rfl, hr₁⟩ := textual_properties.reads h₁
  obtain ⟨o, hr₂, hc₂, ho⟩ := follows_typeExpr outer space _ _ _ h₂
  obtain ⟨os, hr₃, hchain⟩ := (follows_declarator outer space o _ _ _).commaList _ _ _ h₃
  obtain ⟨hc₃, hfs⟩ := hchain.quiet
  obtain ⟨ts₄, rfl, hr₄⟩ := (textual_expectPunct ";").reads h₄
  refine ⟨_, hr₁.bind (hr₂.bind (hr₃.bind (hr₄.bind (Reads.pure _ _)))), ?_, hfs.length_eq, ?_⟩
  · rw [hc₃, hc₂]
  · intro hs hprops f hf
    rw [append_eq_nil_iff, append_eq_nil_iff] at hprops
    obtain ⟨⟨rfl, hprops⟩, hos⟩ := hprops
    rw [hc₂] at hfs
    obtain ⟨variableProps, hmem, hd⟩ := exists_mem_of_forall₂ hfs hf
    have hd := hd hs (flatten_eq_nil_iff.mp hos _ hmem) rfl (ho hs hprops)
    exact ⟨⟨hd.denotes.lays, hd.denotes.within⟩, hd.declarable⟩

/-! ### Records in progress -/

/-- Some fields of the record `d`, entered in the state `s₀`, have been laid, and nothing has been
defined since. -/
structure Building (s₀ : Scope) (d : Definition) (s : Scope) : Prop where
  ready : s.Ready
  lays : ∃ fs, Lays (s₀.enter d) (.fields ⟨s₀.catalog.size⟩ fs) s
  size : s.catalog.size = s₀.catalog.size + 1

namespace Building

variable {s₀ s : Scope}

section
variable (h : Building s₀ d s)
include h

theorem definition_eq (hid : id.index < s₀.catalog.size) :
    s.catalog.definition id = s₀.catalog.definition id := by
  obtain ⟨fs, hlays⟩ := h.lays
  have hne : id ≠ ⟨s₀.catalog.size⟩ := by
    rintro rfl
    exact Nat.lt_irrefl _ hid
  rw [hlays.definition_eq (by simpa using Nat.lt_succ_of_lt hid) hne,
    Scope.definition_enter_of_lt hid]

theorem fullName_self :
    s.catalog.fullName ⟨s₀.catalog.size⟩ = d.fullName := by
  obtain ⟨fs, hlays⟩ := h.lays
  rw [hlays.grows.fullName _ (by simp), Scope.fullName_enter_self]

/-- One field more. -/
theorem addField (ht : Lays s (.type f.type) s) (hf : f.Declarable s.catalog)
    (hadd : Yields (Avroc.addField ⟨s₀.catalog.size⟩ f) s () s') : Building s₀ d s' := by
  obtain ⟨hn, rfl⟩ := yields_addField.mp hadd
  obtain ⟨fs, hlays⟩ := h.lays
  refine ⟨h.ready.extend _ (ht.sound h.ready.sound).2, ⟨fs ++ [f], ?_⟩, ?_⟩
  · exact hlays.fields_append (.field ht hf hn .noField)
  · rw [Scope.size_extend, h.size]

/-- A field added to the record does not matter to another whose type does not reach it. -/
theorem declarable_extend (hs₀ : s₀.Sound) {g : Field} (hg : g.Declarable s.catalog)
    (hwithin : g.type.Within s₀.catalog.size) :
    g.Declarable (s.extend ⟨s₀.catalog.size⟩ f).catalog := by
  have halike : s.catalog.Alike (Matching.below s₀.catalog.size)
      (s.extend ⟨s₀.catalog.size⟩ f).catalog := by
    rintro a _ ⟨rfl, ha⟩
    have hne : a ≠ ⟨s₀.catalog.size⟩ := by
      rintro rfl
      exact Nat.lt_irrefl _ ha
    rw [Scope.definition_extend_of_ne hne]
    refine Definition.alike_self fun k hk => ?_
    rw [h.definition_eq ha] at hk
    exact hs₀.closed a ha k hk
  exact { hg with
    default := fun v hv => by
      rw [← Json.fits_alike halike v _ _ hwithin]
      exact hg.default v hv }

/-- Several fields more, none of a type that reaches the record. -/
theorem addFields_apart (hs₀ : s₀.Sound)
    (hfs : ∀ f ∈ fs, Lays s (.type f.type) s ∧ f.Declarable s.catalog ∧
      f.type.Within s₀.catalog.size) (hadd : Yields (addFields ⟨s₀.catalog.size⟩ fs) s () s') :
    Building s₀ d s' := by
  induction fs generalizing s with
  | nil =>
    obtain ⟨-, rfl⟩ := yields_pure.mp hadd
    exact h
  | cons f fs ih =>
    simp only [addFields, yields_bind] at hadd
    obtain ⟨_, s₁, hadd₁, hadd⟩ := hadd
    obtain ⟨⟨ht, hf, -⟩, hfs⟩ := forall_mem_cons.mp hfs
    have h₁ := h.addField ht hf hadd₁
    obtain ⟨-, rfl⟩ := yields_addField.mp hadd₁
    refine ih h₁ (fun g hg => ?_) hadd
    obtain ⟨htg, hgd, hwithin⟩ := hfs g hg
    refine ⟨?_, h.declarable_extend hs₀ hgd hwithin, hwithin⟩
    exact htg.again h.ready.sound trivial (Scope.grows_extend _ _ _) h₁.ready.complete
      h₁.ready.spaced

/-- **The fields of a declaration are laid one by one**, if it is of one field only or its type does
not reach the record. -/
theorem addFields (hs₀ : s₀.Sound)
    (hfs : ∀ f ∈ fs, Lays s (.type f.type) s ∧ f.Declarable s.catalog)
    (happart : fs.length ≤ 1 ∨ ∀ f ∈ fs, f.type.Within s₀.catalog.size)
    (hadd : Yields (Avroc.addFields ⟨s₀.catalog.size⟩ fs) s () s') : Building s₀ d s' := by
  rcases happart with hone | happart
  · match fs, hone with
    | [], _ =>
      obtain ⟨-, rfl⟩ := yields_pure.mp hadd
      exact h
    | [f], _ =>
      simp only [Avroc.addFields, yields_bind, yields_pure] at hadd
      obtain ⟨_, _, hadd, -, rfl⟩ := hadd
      obtain ⟨ht, hf⟩ := hfs f mem_cons_self
      exact h.addField ht hf hadd
  · exact h.addFields_apart hs₀ (fun f hf => ⟨(hfs f hf).1, (hfs f hf).2, happart f hf⟩) hadd

/-- A name that is neither the simple nor the full name of the record means another type. -/
theorem lt_of_declared (hspaced : d.Spaced) (hdot : '.' ∉ d.name.toList) {name : String}
    (hname : name ≠ d.name) (hfull : name ≠ d.fullName)
    (hid : declared? s outer space name = some id) : id.index < s₀.catalog.size := by
  obtain ⟨text, hspace, hne⟩ := hspaced
  have hdfull : d.fullName = text ++ "." ++ d.name := by
    rw [Definition.fullName, hspace, joinName_some hne]
  -- the full name that the name leads to is not that of the record
  obtain ⟨full, hget, hne⟩ : ∃ full, s.registry.get? full = some id ∧ full ≠ d.fullName := by
    have hresolve : ∀ around, s.registry.resolve name around = some id →
        ∃ full, s.registry.get? full = some id ∧ full ≠ d.fullName := by
      intro around hr
      obtain ⟨full, hget, rfl | ⟨text', -, hdot', rfl⟩⟩ := Registry.get?_of_resolve hr
      · exact ⟨_, hget, hfull⟩
      · refine ⟨_, hget, fun he => hname ?_⟩
        rw [hdfull] at he
        exact (append_dot_inj hdot' hdot he).2
    rcases Option.or_eq_some_iff.mp hid with hid | ⟨-, hid⟩
    · exact hresolve _ hid
    · exact hresolve _ hid
  obtain ⟨hlt, rfl⟩ := h.ready.sound.get? full id hget
  rw [h.size] at hlt
  refine Nat.lt_of_le_of_ne (Nat.lt_succ_iff.mp hlt) fun he => hne ?_
  obtain rfl : id = ⟨s₀.catalog.size⟩ := by
    cases id
    simp_all
  exact h.fullName_self

end

end Building

end Idl

end Avroc
