import Avroc.Module.Source
import Mathlib.Data.List.Forall2

/-!
# Steps of writing a module

A step that writes a part of a module may hand out names for imports, and may meet a value of the
wrong kind.  Both can be read off the types that it writes hints for.

* `handsOut_typeStep`, `handsOut_interfaceModule` : **whole modules.**
-/

namespace Avroc

open List

variable {p : Protocol} {id : TypeId} {t : ImportTable} {x : String × String} {ε α β : Type}
  {u : SourceFile × ImportTable} {c : Catalog} {named : TypeId → Prop} {fault : Misuse → Prop}

/-! ### Tables -/

/-- The table has been reached by handing out aliases of libraries, and local names of types with
the property `named`. -/
inductive ImportTable.Hands (c : Catalog) (named : TypeId → Prop) (t : ImportTable) :
    ImportTable → Prop
  | refl : Hands c named t t
  | library {t' : ImportTable} (library : Library) (needed : Bool) :
      Hands c named t t' → Hands c named t (t'.withLibrary library needed).2
  | reference {t' : ImportTable} {id : TypeId} :
      named id → Hands c named t t' → Hands c named t (t'.withReference (c.definition id)).2

namespace ImportTable

theorem references_withLibrary (t : ImportTable) (library : Library) (needed : Bool) :
    (t.withLibrary library needed).2.references = t.references := by
  have hneeded : (if needed && !t.needs library then { t with needed := t.needed ++ [library] }
      else t).references = t.references := by
    split <;> rfl
  unfold withLibrary
  dsimp only
  split
  · exact hneeded
  · exact hneeded

/-- The references of a table with one more type are those of before and that type. -/
theorem mem_references_withReference {d : Definition} (h : x ∈ (t.withReference d).2.references) :
    x ∈ t.references ∨ x.1 = d.fullName := by
  unfold withReference at h
  split at h
  · exact .inl h
  · split at h
    · exact .inl h
    · refine (mem_append.mp h).imp_right fun hx => ?_
      rw [mem_singleton.mp hx]

namespace Hands

variable {t' t'' : ImportTable}

theorem trans (h : t.Hands c named t') (h' : t'.Hands c named t'') : t.Hands c named t'' := by
  induction h' with
  | refl => exact h
  | library library needed _ ih => exact ih.library library needed
  | reference hid _ ih => exact ih.reference hid

/-- Only the types with the property are referred to, beside those of before. -/
theorem references (h : t.Hands c named t') (hx : x ∈ t'.references) :
    x ∈ t.references ∨ ∃ id, named id ∧ x.1 = c.fullName id := by
  induction h with
  | refl => exact .inl hx
  | library library needed _ ih =>
    rw [references_withLibrary] at hx
    exact ih hx
  | reference hid _ ih =>
    rcases mem_references_withReference hx with hx | hx
    · exact ih hx
    · exact .inr ⟨_, hid, hx⟩

end Hands

end ImportTable

/-! ### Steps -/

/-- From states with the property `I` the step gets a value with the property `P` and leaves such a
state, or it meets one of the faults. -/
structure Renders {σ α : Type} (I : σ → Prop) (fault : Misuse → Prop) (P : α → Prop)
    (step : StateT σ (Except Misuse) α) : Prop where
  result : ∀ t a t', I t → step.run t = .ok (a, t') → P a ∧ I t'
  fault : ∀ t cause, I t → step.run t = .error cause → fault cause

section
variable {σ : Type} {I : σ → Prop} {P P' : α → Prop} {Q : β → Prop}
  {x : StateT σ (Except Misuse) α} {f : α → StateT σ (Except Misuse) β}

theorem renders_pure {a : α} (h : P a) :
    Renders I fault P (pure a : StateT σ (Except Misuse) α) := by
  refine ⟨fun t b t' ht hr => ?_, fun t cause _ hr => nomatch hr⟩
  cases hr
  exact ⟨h, ht⟩

theorem Renders.bind (hx : Renders I fault P x) (hf : ∀ a, P a → Renders I fault Q (f a)) :
    Renders I fault Q (x >>= f) := by
  refine ⟨fun t b t' ht h => ?_, fun t cause ht h => ?_⟩ <;> rw [StateT.run_bind] at h <;>
    rcases hr : x.run t with cause' | ⟨a, t₁⟩ <;> rw [hr] at h
  · cases h
  · obtain ⟨ha, ht₁⟩ := hx.result t a t₁ ht hr
    exact (hf a ha).result t₁ b t' ht₁ h
  · cases h
    exact hx.fault t cause ht hr
  · obtain ⟨ha, ht₁⟩ := hx.result t a t₁ ht hr
    exact (hf a ha).fault t₁ cause ht₁ h

theorem Renders.imp (h : Renders I fault P x) (hP : ∀ a, P a → P' a) : Renders I fault P' x :=
  ⟨fun t a t' ht hr => (h.result t a t' ht hr).imp_left (hP a), h.fault⟩

theorem renders_mapM {R : α → β → Prop} {as : List α} (h : ∀ a ∈ as, Renders I fault (R a) (f a)) :
    Renders I fault (List.Forall₂ R as) (as.mapM f) := by
  induction as with
  | nil => exact renders_pure .nil
  | cons a as ih =>
    obtain ⟨ha, has⟩ := forall_mem_cons.mp h
    rw [mapM_cons]
    exact ha.bind fun b hb => (ih has).bind fun bs hbs => renders_pure (.cons hb hbs)

/-- A value that is there or a fault. -/
theorem renders_liftM {e : Except Misuse α} (hP : ∀ a, e = .ok a → P a)
    (h : ∀ cause, e = .error cause → fault cause) :
    Renders I fault P (liftM e : StateT σ (Except Misuse) α) := by
  cases e with
  | error cause =>
    refine ⟨fun t a t' _ h => (nomatch h), fun t cause' _ h' => ?_⟩
    cases h'
    exact h cause rfl
  | ok a => exact renders_pure (hP a rfl)

theorem renders_get {f : σ → StateT σ (Except Misuse) β} (hf : ∀ t, Renders I fault Q (f t)) :
    Renders I fault Q (get >>= f) :=
  ⟨fun t => (hf t).result t, fun t => (hf t).fault t⟩

/-- A change of the state. -/
theorem renders_modifyGet {f : σ → α × σ} (h : ∀ t, I t → P (f t).1 ∧ I (f t).2) :
    Renders I fault P (modifyGet f : StateT σ (Except Misuse) α) := by
  refine ⟨fun t a t' ht hr => ?_, fun t cause _ hr => nomatch hr⟩
  obtain ⟨rfl, rfl⟩ : (f t).1 = a ∧ (f t).2 = t' := Prod.mk.inj (Except.ok.inj hr)
  exact h t ht

end

/-- The step hands out names to types with the property `named`, after others that have been handed
out since the table `t`, or meets one of the faults. -/
abbrev HandsOut {α : Type} (t : ImportTable) (c : Catalog) (named : TypeId → Prop)
    (fault : Misuse → Prop) (step : Rendering α) : Prop :=
  Renders (t.Hands c named) fault (fun _ => True) step

/-! ### Imports -/

theorem handsOut_libraryAlias (library : Library) (needed : Bool) :
    HandsOut t c named fault (libraryAlias library needed) :=
  renders_modifyGet fun _ ht => ⟨trivial, .library library needed ht⟩

theorem handsOut_importBlock : HandsOut t c named fault importBlock := by
  refine renders_modifyGet fun t ht => ⟨trivial, ?_⟩
  unfold ImportTable.importLines
  split
  · exact ht
  · exact .library .typing true ht

theorem handsOut_typeReference (h : named id) : HandsOut t c named fault (typeReference c id) :=
  renders_modifyGet fun _ ht => ⟨trivial, .reference h ht⟩

theorem handsOut_decimalHint : HandsOut t c named fault decimalHint :=
  (handsOut_libraryAlias _ _).bind fun _ _ => renders_pure trivial

theorem handsOut_schemaMethod (constant method : String) :
    HandsOut t c named fault (schemaMethod constant method) :=
  (handsOut_libraryAlias _ _).bind fun _ _ => (handsOut_libraryAlias _ _).bind fun _ _ =>
    renders_pure trivial

/-! ### Hints -/

/-- The attributes of the primitive types in the type have the first property, and the named types
in it the second. -/
inductive Schema.Each (attributes : Members → Prop) (named : TypeId → Prop) : Schema → Prop
  | primitive {kind : Primitive} {props : Members} :
      attributes props → Each attributes named (.primitive kind props)
  | array {items : Schema} {props : Members} :
      Each attributes named items → Each attributes named (.array items props)
  | map {values : Schema} {props : Members} :
      Each attributes named values → Each attributes named (.map values props)
  | union {branches : List Schema} :
      (∀ t ∈ branches, Each attributes named t) → Each attributes named (.union branches)
  | named {id : TypeId} : named id → Each attributes named (.named id)

/-- The hint of the type refers to the named types only, and meets the faults only. -/
def Schema.Mentions (named : TypeId → Prop) (fault : Misuse → Prop) : Schema → Prop :=
  Each (fun props => ∀ cause, timeClass props = .error cause → fault cause) named

section
variable (o : CompileOptions)

theorem handsOut_logicalHint (kind : Primitive) {props : Members}
    (h : ∀ cause, timeClass props = .error cause → fault cause) :
    HandsOut t c named fault (logicalHint o kind props) := by
  unfold logicalHint
  split
  · exact handsOut_decimalHint
  · refine (renders_liftM (fun _ _ => trivial) h).bind fun name _ => ?_
    split
    · split
      · exact (handsOut_libraryAlias _ _).bind fun _ _ => renders_pure trivial
      · exact renders_pure trivial
    · exact renders_pure trivial

theorem handsOut_referenceHint (h : named id) :
    HandsOut t c named fault (referenceHint c o id) := by
  unfold referenceHint
  dsimp only
  split
  · split
    · exact handsOut_decimalHint
    · exact handsOut_typeReference h
  · exact handsOut_typeReference h

theorem handsOut_typeHint {s : Schema} (h : s.Mentions named fault) :
    HandsOut t c named fault (s.typeHint c o) := by
  unfold Schema.Mentions at h
  induction h with
  | primitive hp => exact handsOut_logicalHint o _ hp
  | array _ ih => exact ih.bind fun _ _ => renders_pure trivial
  | map _ ih => exact ih.bind fun _ _ => renders_pure trivial
  | @union branches hall ih =>
    suffices hbranches : HandsOut t c named fault (Schema.branchHints c o branches) from
      hbranches.bind fun _ _ => renders_pure trivial
    clear hall
    induction branches with
    | nil => exact renders_pure trivial
    | cons branch rest ihs =>
      obtain ⟨hbranch, hrest⟩ := forall_mem_cons.mp ih
      rw [Schema.branchHints]
      split
      · exact ihs hrest
      · exact hbranch.bind fun _ _ => (ihs hrest).bind fun _ _ => renders_pure trivial
  | named hid => exact handsOut_referenceHint o hid

/-! ### Fields and messages -/

theorem handsOut_fieldLines {f : Field} (h : f.type.Mentions named fault) :
    HandsOut t c named fault (fieldLines c o f) := by
  refine (handsOut_typeHint o h).bind fun hint _ => ?_
  refine Renders.bind (P := fun _ => True) ?_ fun _ _ => renders_pure trivial
  unfold fieldValue
  split
  · exact renders_pure trivial
  · split
    · exact renders_pure trivial
    · exact (handsOut_libraryAlias _ _).bind fun _ _ => renders_pure trivial
  · exact (handsOut_libraryAlias _ _).bind fun _ _ => renders_pure trivial

theorem handsOut_messageMethod {m : Message}
    (hrequest : ∀ f ∈ m.request, f.type.Mentions named fault)
    (hresponse : m.response.Mentions named fault) (herrors : ∀ id ∈ m.errors, named id) :
    HandsOut t c named fault (messageMethod c o m) := by
  have hraised := renders_mapM fun id hid =>
    (handsOut_typeReference (herrors id hid) : HandsOut t c named fault _)
  refine (renders_mapM (R := fun _ _ => True) fun f hf => ?_).bind fun parameters _ => ?_
  · exact (handsOut_typeHint o (hrequest f hf)).bind fun _ _ => renders_pure trivial
  · dsimp only
    split
    · exact (renders_pure (P := fun _ => True) trivial).bind
        fun _ _ => hraised.bind fun _ _ => renders_pure trivial
    · exact (handsOut_typeHint o hresponse).bind
        fun _ _ => hraised.bind fun _ _ => renders_pure trivial

end

/-! ### Modules with their imports -/

theorem eq_ok_of_toOption {r : Except ε α} {a : α} (h : r.toOption = some a) :
    r = .ok a := by
  cases r with
  | error e => cases h
  | ok b => rw [Option.some.inj h]

theorem map_eq_ok {r : Except ε α} {f : α → β} {b : β} :
    r.map f = .ok b ↔ ∃ a, r = .ok a ∧ f a = b := by
  cases r <;> simp [Except.map]

theorem map_eq_error {r : Except ε α} {f : α → β} {e : ε} : r.map f = .error e ↔ r = .error e := by
  cases r <;> simp [Except.map]

theorem bind_eq_ok {r : Except ε α} {f : α → Except ε β} {b : β} :
    r >>= f = .ok b ↔ ∃ a, r = .ok a ∧ f a = .ok b := by
  cases r <;> simp [bind, Except.bind]

/-- A list is worked off without a fault when each of its members is. -/
theorem mapM_eq_ok {f : α → Except ε β} {as : List α} {bs : List β} :
    as.mapM f = .ok bs ↔ List.Forall₂ (fun a b => f a = .ok b) as bs := by
  induction as generalizing bs with
  | nil => cases bs <;> simp [pure, Except.pure]
  | cons a as ih =>
    simp only [mapM_cons, bind_eq_ok, ih, forall₂_cons_left_iff]
    constructor
    · rintro ⟨b, hb, rest, hrest, h⟩
      exact ⟨b, rest, hb, hrest, (Except.ok.inj h).symm⟩
    · rintro ⟨b, rest, hb, hrest, rfl⟩
      exact ⟨b, hb, rest, hrest, rfl⟩

/-- The step that writes the module of a named type. -/
def typeStep (c : Catalog) (o : CompileOptions) (id : TypeId) : Rendering String :=
  match (c.definition id).body with
  | .record isError fields => recordModule c o id isError fields
  | .enum symbols _ => enumModule c id symbols
  | .fixed size => fixedModule c id size

/-- The module of a named type, with the imports that it was written with. -/
def typeUnit (c : Catalog) (o : CompileOptions) (id : TypeId) :
    Except Misuse (SourceFile × ImportTable) :=
  ((typeStep c o id).run (.ofType (c.definition id) (boundNames o (c.definition id).body))).map
    fun r => (⟨modulePath (c.fullName id), r.1⟩, r.2)

/-- The module of a protocol itself, with the imports that it was written with. -/
def interfaceUnit (c : Catalog) (o : CompileOptions) (p : Protocol) :
    Except Misuse (SourceFile × ImportTable) :=
  ((interfaceModule c o p).run (.ofNone (p.messages.map fun m => safeName m.name))).map
    fun r => (⟨modulePath p.fullName, r.1⟩, r.2)

/-- The modules of a protocol, with their imports. -/
def protocolUnits (c : Catalog) (o : CompileOptions) (p : Protocol) :
    Except Misuse (List (SourceFile × ImportTable)) := do
  let types ← p.types.mapM (typeUnit c o)
  let interface ← interfaceUnit c o p
  return types ++ [interface]

section
variable {o : CompileOptions}

theorem run_of_typeUnit (h : typeUnit c o id = .ok u) :
    u.1.path = modulePath (c.fullName id) ∧
      (typeStep c o id).run (.ofType (c.definition id) (boundNames o (c.definition id).body)) =
        .ok (u.1.content, u.2) := by
  obtain ⟨r, hr, rfl⟩ := map_eq_ok.mp h
  exact ⟨rfl, hr⟩

theorem run_of_interfaceUnit (h : interfaceUnit c o p = .ok u) :
    u.1.path = modulePath p.fullName ∧
      (interfaceModule c o p).run (.ofNone (p.messages.map fun m => safeName m.name)) =
        .ok (u.1.content, u.2) := by
  obtain ⟨r, hr, rfl⟩ := map_eq_ok.mp h
  exact ⟨rfl, hr⟩

theorem exists_of_protocolUnits {units : List (SourceFile × ImportTable)}
    (h : protocolUnits c o p = .ok units) :
    ∃ types interface, List.Forall₂ (fun id u => typeUnit c o id = .ok u) p.types types ∧
      interfaceUnit c o p = .ok interface ∧ units = types ++ [interface] := by
  obtain ⟨types, htypes, h⟩ := bind_eq_ok.mp h
  obtain ⟨interface, hunit, h⟩ := bind_eq_ok.mp h
  exact ⟨types, interface, mapM_eq_ok.mp htypes, hunit, (Except.ok.inj h).symm⟩

end

theorem typeModule_eq (c : Catalog) (o : CompileOptions) (id : TypeId) :
    typeModule c o id = (typeUnit c o id).map Prod.fst := by
  have hstep : typeModule c o id = ((typeStep c o id).run'
      (.ofType (c.definition id) (boundNames o (c.definition id).body))).map
        (SourceFile.mk (modulePath (c.fullName id))) := rfl
  rw [hstep, typeUnit, StateT.run'_eq]
  cases (typeStep c o id).run _ <;> rfl

theorem typeModules_eq (c : Catalog) (o : CompileOptions) (ids : List TypeId) :
    typeModules c o ids = (ids.mapM (typeUnit c o)).map (List.map Prod.fst) := by
  unfold typeModules
  induction ids with
  | nil => rfl
  | cons id ids ih =>
    rw [mapM_cons, mapM_cons, ih, typeModule_eq]
    cases typeUnit c o id with
    | error cause => rfl
    | ok unit => cases ids.mapM (typeUnit c o) <;> rfl

/-- The modules of a protocol are those that are written with their imports. -/
theorem protocolModules_eq (c : Catalog) (o : CompileOptions) (p : Protocol) :
    protocolModules c o p = (protocolUnits c o p).map (List.map Prod.fst) := by
  have hstep : protocolModules c o p = (typeModules c o p.types).bind fun files =>
      ((interfaceModule c o p).run' (.ofNone (p.messages.map fun m => safeName m.name))).map
        fun content => files ++ [⟨modulePath p.fullName, content⟩] := rfl
  rw [hstep, protocolUnits, typeModules_eq, interfaceUnit, StateT.run'_eq]
  cases p.types.mapM (typeUnit c o) with
  | error cause => rfl
  | ok types =>
    cases (interfaceModule c o p).run _ with
    | error cause => rfl
    | ok r =>
      show Except.ok _ = Except.ok _
      rw [map_append]
      rfl

section
variable {o : CompileOptions}

theorem exists_of_typeModule {file : SourceFile} (h : typeModule c o id = .ok file) :
    ∃ t, typeUnit c o id = .ok (file, t) := by
  rw [typeModule_eq] at h
  obtain ⟨u, hu, rfl⟩ := map_eq_ok.mp h
  exact ⟨u.2, hu⟩

theorem exists_of_protocolModules {files : List SourceFile}
    (h : protocolModules c o p = .ok files) :
    ∃ types interface t, typeModules c o p.types = .ok types ∧
      interfaceUnit c o p = .ok (interface, t) ∧ files = types ++ [interface] := by
  rw [protocolModules_eq] at h
  obtain ⟨units, hunits, rfl⟩ := map_eq_ok.mp h
  obtain ⟨types, u, htypes, hunit, rfl⟩ := exists_of_protocolUnits hunits
  refine ⟨types.map Prod.fst, u.1, u.2, ?_, hunit, map_append⟩
  rw [typeModules_eq, mapM_eq_ok.mpr htypes]
  rfl

end

section
variable (o : CompileOptions)

/-- **The module of a type hands out names to what its fields refer to.** -/
theorem handsOut_typeStep
    (hfields : ∀ f ∈ (c.definition id).body.fields, f.type.Mentions named fault)
    (hdocument : ∀ cause, (Schema.named id).document c = .error cause → fault cause) :
    HandsOut t c named fault (typeStep c o id) := by
  have hend : ∀ render : List String → List String → Json → String, HandsOut t c named fault (do
      let method ← schemaMethod "SCHEMA_JSON" "avro_schema"
      let imports ← importBlock
      let document ← documentOf c id
      return render method imports document) := fun render =>
    (handsOut_schemaMethod _ _).bind fun _ _ => handsOut_importBlock.bind fun _ _ =>
      (renders_liftM (fun _ _ => trivial) hdocument).bind fun _ _ => renders_pure trivial
  unfold typeStep
  cases hb : (c.definition id).body with
  | record isError fields =>
    rw [hb] at hfields
    refine (renders_mapM (R := fun _ _ => True) fun f hf =>
      handsOut_fieldLines o (hfields f hf)).bind fun parts _ => ?_
    exact (handsOut_libraryAlias _ _).bind fun _ _ => hend _
  | enum symbols default => exact (handsOut_libraryAlias _ _).bind fun _ _ => hend _
  | fixed size => exact hend _

/-- **The module of a protocol hands out names to what its messages refer to.** -/
theorem handsOut_interfaceModule
    (hrequest : ∀ m ∈ p.messages, ∀ f ∈ m.request, f.type.Mentions named fault)
    (hresponse : ∀ m ∈ p.messages, m.response.Mentions named fault)
    (herrors : ∀ m ∈ p.messages, ∀ id ∈ m.errors, named id)
    (hdocument : ∀ cause, p.document c = .error cause → fault cause) :
    HandsOut t c named fault (interfaceModule c o p) := by
  refine (renders_mapM (R := fun _ _ => True) fun m hm => ?_).bind fun methods _ => ?_
  · exact handsOut_messageMethod o (hrequest m hm) (hresponse m hm) (herrors m hm)
  · refine (handsOut_libraryAlias _ _).bind
      fun _ _ => (handsOut_schemaMethod _ _).bind fun _ _ => ?_
    exact handsOut_importBlock.bind
      fun _ _ => (renders_liftM (fun _ _ => trivial) hdocument).bind fun _ _ =>
      renders_pure trivial

end

end Avroc
