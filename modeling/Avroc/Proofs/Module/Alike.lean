import Avroc.Proofs.Module.Naming
import Avroc.Proofs.Module.Rendering
import Avroc.Proofs.Schema.Agree
import Avroc.Proofs.Schema.Document

/-!
# Modules of alike types

A module is made from what the definitions show, so alike definitions in two catalogs have the same
module.

* `typeUnit_alike`, `typeModule_alike` : **alike definitions have the same module.**
-/

namespace Avroc

open List

variable {c c' : Catalog} {o : CompileOptions} {files : List SourceFile} {ids : List TypeId}
  {p q : Members} {t u : Schema} {a b id : TypeId} {doc doc' : Option String} {ρ : Matching}
  {d e : Body} {f g : Field} {file : SourceFile}

/-! ### Attributes -/

theorem Members.get?_eq_of_tidy (h : p.tidy = q.tidy) (key : String) : p.get? key = q.get? key := by
  rw [← Members.get?_tidy p, h, Members.get?_tidy]

theorem isDecimal_eq (h : p.tidy = q.tidy) : isDecimal p = isDecimal q := by
  have hget := Members.get?_eq_of_tidy h
  rw [isDecimal, isDecimal, hget, hget, hget]

theorem logicalHint_eq (o : CompileOptions) (kind : Primitive) (h : p.tidy = q.tidy) :
    logicalHint o kind p = logicalHint o kind q := by
  rw [logicalHint, logicalHint, isDecimal_eq h, timeClass, timeClass, Members.get?_eq_of_tidy h]

theorem headerLines_eq (title fullName : String) (h : givenText doc = givenText doc') :
    headerLines title fullName doc = headerLines title fullName doc' := by
  rw [headerLines, headerLines, h]

theorem fieldComment_eq (h : givenText doc = givenText doc') :
    fieldComment doc = fieldComment doc' := by
  rw [fieldComment, fieldComment, h]

/-- Alike bodies are both of a fixed type or both of another. -/
theorem Body.Alike.match_fixed {α : Type} (x y : α) : d.Alike ρ e →
    (match d with | .fixed _ => x | _ => y) = (match e with | .fixed _ => x | _ => y) := by
  exact Body.Alike.cases (fun _ => rfl) (fun _ _ => rfl) (fun _ => rfl)

/-! ### Type hints -/

section
variable (hc : c.Alike ρ c')
include hc

theorem typeReference_alike (h : ρ a b) : typeReference c a = typeReference c' b := by
  have hd := hc a b h
  have hwith : ∀ t : ImportTable, t.withReference (c.definition a) =
      t.withReference (c'.definition b) := by
    intro t
    rw [ImportTable.withReference, ImportTable.withReference, ImportTable.freshLocal,
      ImportTable.freshLocal, hd.fullName_eq, hd.name]
  rw [typeReference, typeReference]
  exact congrArg modifyGet (funext hwith)

theorem referenceHint_alike (o : CompileOptions) (h : ρ a b) :
    referenceHint c o a = referenceHint c' o b := by
  rw [referenceHint, referenceHint, typeReference_alike hc h, isDecimal_eq (hc a b h).props]
  exact Body.Alike.match_fixed _ _ (hc a b h).body

theorem Schema.Alike.typeHint_eq (o : CompileOptions) (h : t.Alike ρ u) :
    t.typeHint c o = u.typeHint c' o := by
  refine Alike.induction ?primitive ?array ?map ?union ?named h
  case primitive => exact fun kind hp => logicalHint_eq o kind hp
  case array => exact fun _ ih _ => by rw [Schema.typeHint, Schema.typeHint, ih]
  case map => exact fun _ ih _ => by rw [Schema.typeHint, Schema.typeHint, ih]
  case union =>
    intro ts us hb ih
    have hnull : ts.any Schema.isNull = us.any Schema.isNull := by
      clear ih
      induction hb with
      | nil => rfl
      | cons hu _ ihs => rw [any_cons, any_cons, ihs, hu.isNull_eq]
    have hhints : Schema.branchHints c o ts = Schema.branchHints c' o us := by
      clear hnull
      induction hb with
      | nil => rfl
      | cons hu _ ihs =>
        rw [forall₂_cons] at ih
        rw [Schema.branchHints, Schema.branchHints, ihs ih.2, hu.isNull_eq, ih.1]
    rw [Schema.typeHint, Schema.typeHint, hhints, hnull]
  case named => exact fun hab => referenceHint_alike hc o hab

/-! ### Fields -/

/-- Whether a type that is not a union holds bytes. -/
def branchHoldsBytes (c : Catalog) : Schema → Bool
  | .primitive .bytes _ => true
  | .named id =>
    match (c.definition id).body with
    | .fixed _ => true
    | _ => false
  | _ => false

theorem branchHoldsBytes_alike (h : t.Alike ρ u) :
    branchHoldsBytes c t = branchHoldsBytes c' u := by
  refine Schema.Alike.induction (fun kind _ => ?_) (fun _ _ _ => rfl) (fun _ _ _ => rfl)
    (fun _ _ => rfl) (fun hab => Body.Alike.match_fixed _ _ (hc _ _ hab).body) h
  cases kind <;> rfl

theorem holdsBytes_alike (h : t.Alike ρ u) : holdsBytes c t = holdsBytes c' u := by
  have hone : ∀ {t u : Schema}, t.Alike ρ u → branchHoldsBytes c t = branchHoldsBytes c' u :=
    fun h => branchHoldsBytes_alike hc h
  refine Schema.Alike.induction ?primitive ?array ?map ?union ?named h
  case primitive => exact fun kind _ => by cases kind <;> rfl
  case array => exact fun _ _ _ => rfl
  case map => exact fun _ _ _ => rfl
  case union =>
    intro ts us hb _
    cases hb with
    | nil => rfl
    | cons hu _ => exact hone hu
  case named => exact fun hab => hone (t := .named _) (u := .named _) ⟨_, rfl, hab⟩

theorem defaultLiteral_alike (h : t.Alike ρ u) (value : Json) :
    defaultLiteral c t value = defaultLiteral c' u value := by
  unfold defaultLiteral
  rw [holdsBytes_alike hc h]

theorem Field.Alike.fieldArguments_eq (o : CompileOptions) (h : f.Alike ρ g) :
    fieldArguments c o f = fieldArguments c' o g := by
  simp only [fieldArguments, h.default, defaultLiteral_alike hc h.type]

theorem Field.Alike.fieldLines_eq (o : CompileOptions) (h : f.Alike ρ g) :
    fieldLines c o f = fieldLines c' o g := by
  have hvalue : fieldValue c o f = fieldValue c' o g := by
    simp only [fieldValue, h.default, h.fieldArguments_eq hc o, defaultLiteral_alike hc h.type]
  rw [fieldLines, fieldLines, h.type.typeHint_eq hc o, hvalue, h.name, fieldComment_eq h.doc]

theorem mapM_fieldLines_alike (o : CompileOptions) {fs gs : List Field}
    (h : List.Forall₂ (Field.Alike ρ) fs gs) :
    fs.mapM (fieldLines c o) = gs.mapM (fieldLines c' o) := by
  induction h with
  | nil => rfl
  | cons hf _ ih => rw [mapM_cons, mapM_cons, ih, hf.fieldLines_eq hc o]

end

/-! ### Modules -/

theorem boundNames_alike (o : CompileOptions) (h : d.Alike ρ e) :
    boundNames o d = boundNames o e := by
  refine Body.Alike.cases (fun {_ fields fields'} hfs => ?_) (fun _ _ => rfl) (fun _ => rfl) h
  show fields.map _ = fields'.map _
  induction hfs with
  | nil => rfl
  | cons hf _ ih => rw [map_cons, map_cons, ih, hf.name]

section
variable (hc : c.Alike ρ c') (hr : ∀ a b, ρ a b → a.index < c.size ∧ b.index < c'.size)
include hc hr

theorem documentOf_alike (h : ρ a b) : documentOf c a = documentOf c' b := by
  have hab : (Schema.named a).Alike ρ (.named b) := ⟨b, rfl, h⟩
  rw [documentOf, documentOf, Schema.document_alike hc hr hab]

theorem typeStep_alike (o : CompileOptions) (h : ρ a b) : typeStep c o a = typeStep c' o b := by
  have hd := hc a b h
  have hname := hd.name
  have hfull := hd.fullName_eq
  have hdoc := hd.doc
  have hdocument := documentOf_alike hc hr h
  have hheader := fun title fullName => headerLines_eq title fullName hd.doc
  unfold typeStep
  refine Body.Alike.cases (fun hfs => ?_) (fun _ _ => ?_) (fun _ => ?_) hd.body
  · simp only [recordModule, mapM_fieldLines_alike hc o hfs, hname, hfull, hdocument, hheader, hdoc]
  · simp only [enumModule, hname, hfull, hdocument, hheader, hdoc]
  · simp only [fixedModule, hname, hfull, hdocument, hheader, hdoc]

/-- **Alike definitions have the same module**, with the same imports. -/
theorem typeUnit_alike (o : CompileOptions) (h : ρ a b) : typeUnit c o a = typeUnit c' o b := by
  have hd := hc a b h
  rw [typeUnit, typeUnit, typeStep_alike hc hr o h, ImportTable.ofType, ImportTable.ofType,
    boundNames_alike o hd.body, hd.name, hd.fullName_eq, hc.fullName_eq h]

theorem typeModule_alike (o : CompileOptions) (h : ρ a b) :
    typeModule c o a = typeModule c' o b := by
  rw [typeModule_eq, typeModule_eq, typeUnit_alike hc hr o h]

end

/-! ### Types and their modules -/

/-- The type is defined in the catalog, and the file is its module. -/
def Catalog.HasModule (c : Catalog) (o : CompileOptions) (id : TypeId) (file : SourceFile) : Prop :=
  id.index < c.size ∧ typeModule c o id = .ok file

theorem path_of_typeModule (h : typeModule c o id = .ok file) :
    file.path = modulePath (c.fullName id) := by
  obtain ⟨t, ht⟩ := exists_of_typeModule h
  exact (run_of_typeUnit ht).1

/-- The module of a fixed type starts with its name. -/
theorem content_of_fixed {size : Int} (hb : (c.definition id).body = .fixed size)
    (h : typeModule c o id = .ok file) :
    ∃ rest, file.content = linesText (headerLines ((c.definition id).name ++ " fixed.")
      (c.fullName id) (c.definition id).doc ++ rest) := by
  unfold typeModule at h
  simp only [hb] at h
  dsimp only [bind, Except.bind] at h
  split at h
  · cases h
  · rename_i content hc
    cases h
    simp only [fixedModule, StateT.run'_eq, StateT.run_bind, StateT.run_pure, append_assoc] at hc
    generalize StateT.run (schemaMethod "SCHEMA_JSON" "avro_schema") _ = method at hc
    rcases method with _ | ⟨method, t⟩
    · cases hc
    dsimp only [bind, Except.bind] at hc
    generalize StateT.run importBlock t = imports at hc
    rcases imports with _ | ⟨imports, t⟩
    · cases hc
    dsimp only at hc
    generalize StateT.run (documentOf c id) t = document at hc
    rcases document with _ | ⟨document, t⟩
    · cases hc
    exact ⟨_, (Except.ok.inj hc).symm⟩

theorem typeModules_eq_ok : typeModules c o ids = .ok files ↔
      List.Forall₂ (fun id file => typeModule c o id = .ok file) ids files :=
  mapM_eq_ok

theorem hasModule_of_typeModules (h : typeModules c o ids = .ok files)
    (hids : ∀ id ∈ ids, id.index < c.size) : List.Forall₂ (c.HasModule o) ids files := by
  have hall := typeModules_eq_ok.mp h
  clear h
  induction hall with
  | nil => exact .nil
  | cons hm _ ih =>
    rw [forall_mem_cons] at hids
    exact .cons ⟨hids.1, hm⟩ (ih hids.2)

namespace Catalog.HasModule

variable {s t : Scope} {o : CompileOptions}

theorem kept (h : s.catalog.HasModule o id file) (hs : s.Solid) (hk : s.KeptIn t) :
    t.catalog.HasModule o id file := by
  have ha := Agree.of_kept hs hk
  refine ⟨Nat.lt_of_lt_of_le h.1 hk.size, ?_⟩
  rw [← typeModule_alike ha.alike ha.range o ⟨rfl, h.1⟩]
  exact h.2

end Catalog.HasModule

/-- The modules lie where the full names of the types lead. -/
theorem paths_of_forall₂ (h : List.Forall₂ (c.HasModule o) ids files) :
    files.map (·.path) = ids.map fun id => modulePath (c.fullName id) := by
  induction h with
  | nil => rfl
  | cons hm _ ih => rw [map_cons, map_cons, ih, path_of_typeModule hm.2]

theorem named_of_typeModules (h : typeModules c o ids = .ok files) :
    ∀ file ∈ files, file.Named := by
  have hall := typeModules_eq_ok.mp h
  clear h
  induction hall with
  | nil => exact forall_mem_nil _
  | cons hm _ ih => exact forall_mem_cons.mpr ⟨⟨_, path_of_typeModule hm⟩, ih⟩

/-- The paths of the modules of a protocol. -/
theorem paths_of_protocolModules {p : Protocol} (h : protocolModules c o p = .ok files) :
    files.map (·.path) =
      p.types.map (fun id => modulePath (c.fullName id)) ++ [modulePath p.fullName] := by
  rw [protocolModules_eq] at h
  obtain ⟨units, hunits, rfl⟩ := map_eq_ok.mp h
  obtain ⟨types, interface, htypes, hinterface, rfl⟩ := exists_of_protocolUnits hunits
  have hpaths : (types.map Prod.fst).map (·.path) =
      p.types.map fun id => modulePath (c.fullName id) := by
    clear hunits h
    generalize p.types = ids at htypes ⊢
    induction htypes with
    | nil => rfl
    | cons hu _ ih => rw [map_cons, map_cons, map_cons, ih, (run_of_typeUnit hu).1]
  rw [map_append, map_append, hpaths, map_singleton, map_singleton,
    (run_of_interfaceUnit hinterface).1]

theorem named_of_protocolModules {p : Protocol} (h : protocolModules c o p = .ok files) :
    ∀ file ∈ files, file.Named := by
  intro file hfile
  have hpath : file.path ∈ files.map (·.path) := mem_map_of_mem hfile
  rw [paths_of_protocolModules h] at hpath
  rcases mem_append.mp hpath with hm | hm
  · obtain ⟨id, -, he⟩ := mem_map.mp hm
    exact ⟨_, he.symm⟩
  · exact ⟨_, mem_singleton.mp hm⟩

end Avroc
