import Avroc.Proofs.Batch.Accounting
import Avroc.Proofs.Module.Handing
import Avroc.Proofs.Registry.Closure

/-!
# Modules that import each other

A generated module imports the modules of the types that it refers to.  They are there: what is
generated for a document or by a batch are the modules of all types of a registry, and the types of
a registry refer to types of the registry only.

* `importClosed_of_types` : **the modules of all types of a registry import each other only.**
-/

namespace Avroc

open List

variable {units : List (SourceFile × ImportTable)} {s : Scope} {o : CompileOptions} {p : Protocol}
  {sourceRoot target : Path} {b : Batch} {start : Disk}

/-- Every type that one of the modules imports has its module among them. -/
def ImportClosed (units : List (SourceFile × ImportTable)) : Prop :=
  ∀ u ∈ units, ∀ x ∈ u.2.references, ∃ u' ∈ units, u'.1.path = modulePath x.1

/-! ### References to a registry -/

theorem Scope.Upright.snapshot (h : s.Upright) : s.snapshot.scope.Upright := by
  have hg : s.Grows s.snapshot.scope := ⟨Nat.le_refl _, fun _ _ => rfl, fun _ _ h => h, rfl, rfl⟩
  exact fun id hid f hf => (h id hid f hf).mono hg

/-- The module of a type of the registry stays the same while the registry grows. -/
theorem typeUnit_of_kept {t : Scope} (hk : s.registry.Keyed s.catalog) (hs : s.Upright)
    (h : s.KeptIn t) {id : TypeId} (hid : id ∈ s.registry.types) :
    typeUnit t.catalog o id = typeUnit s.catalog o id := by
  have hlt : ∀ id ∈ s.registry.types, id.index < s.catalog.size :=
    fun id hid => (hk.get?_fullName hid).1
  symm
  refine typeUnit_alike (ρ := fun a b => a = b ∧ a ∈ s.registry.types) ?_ ?_ o ⟨rfl, hid⟩
  · rintro a _ ⟨rfl, ha⟩
    rw [h.definition a (hlt a ha)]
    exact Definition.alike_self fun f hf => (hs a ha f hf).alike
  · rintro a _ ⟨rfl, ha⟩
    exact ⟨hlt a ha, Nat.lt_of_lt_of_le (hlt a ha) h.size⟩

/-- A table that hands out names to types of the registry refers to names of the registry. -/
theorem ImportTable.Hands.names {t t' : ImportTable} (h : t.Hands s.catalog s.Knows t')
    (ht : t.references = []) : ∀ x ∈ t'.references, x.1 ∈ s.registry.names := by
  intro x hx
  rcases h.references hx with hx | ⟨id, hid, hx⟩
  · rw [ht] at hx
    cases hx
  · rw [hx]
    exact mem_map_of_mem (Registry.mem_of_get? hid)

/-- **The modules of all types of a registry import each other only**, and so do modules beside them
that refer to names of the registry. -/
theorem importClosed_of_types (hk : s.registry.Keyed s.catalog) (hs : s.Upright)
    {more : List (SourceFile × ImportTable)}
    (h : List.Forall₂ (fun id u => typeUnit s.catalog o id = .ok u) s.registry.types units)
    (hmore : ∀ u ∈ more, ∀ x ∈ u.2.references, x.1 ∈ s.registry.names) :
    ImportClosed (units ++ more) := by
  have hnames : ∀ u ∈ units ++ more, ∀ x ∈ u.2.references, x.1 ∈ s.registry.names := by
    refine forall_mem_append.mpr ⟨fun u hu => ?_, hmore⟩
    obtain ⟨id, hid, hunit⟩ := exists_mem_of_forall₂ h.flip hu
    exact (hands_of_typeUnit hs hid hunit).2.names rfl
  intro u hu x hx
  obtain ⟨e, he, hname⟩ := mem_map.mp (hnames u hu x hx)
  have hid : e.2 ∈ s.registry.types := mem_map_of_mem he
  obtain ⟨u', hu', hunit⟩ := exists_mem_of_forall₂ h hid
  refine ⟨u', mem_append_left _ hu', ?_⟩
  rw [(hands_of_typeUnit hs hid hunit).1, hk.fullName e he, hname]

/-! ### Documents -/

/-- The modules of a protocol that has all types of the registry import each other only. -/
theorem importClosed_of_protocol (hk : s.registry.Keyed s.catalog) (hs : s.Upright)
    (hp : p.Stands s) (htypes : p.types = s.registry.types)
    (h : protocolUnits s.catalog o p = .ok units) : ImportClosed units := by
  obtain ⟨types, interface, hunits, hunit, rfl⟩ := exists_of_protocolUnits h
  refine importClosed_of_types hk hs (htypes ▸ hunits) ?_
  exact forall_mem_singleton.mpr ((hands_of_interfaceUnit hp hunit).2.names rfl)

/-- The protocol of a document that is read into a registry without types has all its types. -/
theorem types_of_protocol {call : ParseCall} {s' : Scope} (hs : s.registry.entries = [])
    (h : Yields call.run s (.protocol p) s') :
    p.types = s'.registry.types := by
  have hstart := Scope.orderly_of_empty hs
  cases call with
  | schema text =>
    obtain ⟨t, s₁, -, hr⟩ := yields_bind.mp h
    obtain ⟨heq, -⟩ := yields_pure.mp hr
    cases heq
  | protocol text =>
    obtain ⟨q, s₁, hq, hr⟩ := yields_bind.mp h
    obtain ⟨heq, rfl⟩ := yields_pure.mp hr
    cases heq
    rw [(parts_of_readProtocolText hq).1, Registry.names, hs]
    simp [Registry.newTypes, Registry.types]
  | idl disk path text =>
    obtain ⟨q, s₁, hq, hr⟩ := yields_bind.mp h
    obtain ⟨heq, rfl⟩ := yields_pure.mp hr
    cases heq
    exact (Idl.parts_of_readIdl hstart hq).1

/-! ### Batches -/

/-- The types that the batch knows are those whose modules it has written, with these imports. -/
def Batch.Wrote (o : CompileOptions) (target : Path) (start : Disk) (b : Batch) (d : Disk)
    (units : List (SourceFile × ImportTable)) : Prop :=
  List.Forall₂ (fun id u => typeUnit b.known.catalog o id = .ok u) b.known.registry.types units ∧
    PlacedAll target (units.map (·.1)) start d ∧
    b.written = units.map fun u => target.join u.1.path

/-- The types that the batch knows stand, and it has written their modules. -/
structure Batch.Linked (o : CompileOptions) (target : Path) (start : Disk) (b : Batch) (d : Disk) :
    Prop where
  keyed : b.known.registry.Keyed b.known.catalog
  upright : b.known.scope.Upright
  wrote : ∃ units, b.Wrote o target start d units

namespace Batch.Linked

variable {d d' : Disk} {b' : Batch}

theorem importClosed (h : b.Linked o target start d) :
    ∃ units, b.Wrote o target start d units ∧ ImportClosed units := by
  obtain ⟨units, hwrote⟩ := h.wrote
  refine ⟨units, hwrote, ?_⟩
  have hclosed : ImportClosed (units ++ []) :=
    importClosed_of_types (s := b.known.scope) h.keyed h.upright hwrote.1 (forall_mem_nil _)
  rwa [append_nil] at hclosed

/-- **A try keeps the modules linked.** -/
theorem attempt {path : Path} {again : Bool} (h : b.Linked o target start d)
    (htry : Attempt o sourceRoot target path d b again b' d') : b'.Linked o target start d' := by
  cases htry with
  | failed => exact ⟨h.keyed, h.upright, h.wrote⟩
  | misplaced => exact ⟨h.keyed, h.upright, h.wrote⟩
  | @compiled type t files d' hread _ hmodules hplaced =>
    have horderly : b.known.scope.Orderly b.known.catalog.size :=
      ⟨Nat.le_refl _, h.keyed, fun id hid f hf => (h.upright id hid f hf).within⟩
    have hbuilds := ((Idl.leads_readSchemaFile (d := d) horderly path).of_yields hread).1
    have hregistry : b.known.registry.addAll t.catalog
        (t.registry.newTypes b.known.registry.names) =
        t.registry := hbuilds.addAll_newTypes (Nat.le_refl _)
    rw [hregistry]
    have hkept : b.known.scope.KeptIn t := hbuilds.kept (Nat.le_refl _)
    have htypes : t.registry.types = b.known.registry.types ++
        t.registry.newTypes b.known.registry.names := hbuilds.types_eq (Nat.le_refl _)
    refine ⟨hbuilds.orderly.keyed, (hbuilds.upright h.upright).snapshot, ?_⟩
    obtain ⟨old, hold, hplacedOld, hwritten⟩ := h.wrote
    rw [typeModules_eq] at hmodules
    cases hnew : (t.registry.newTypes b.known.registry.names).mapM (typeUnit t.catalog o) with
    | error cause =>
      rw [hnew] at hmodules
      cases hmodules
    | ok new =>
      rw [hnew] at hmodules
      cases hmodules
      refine ⟨old ++ new, ?_, ?_, ?_⟩
      · show List.Forall₂ (fun id u => typeUnit t.catalog o id = .ok u) t.registry.types _
        rw [htypes]
        refine rel_append ?_ (mapM_eq_ok.mp hnew)
        refine ((List.forall₂_and_left _ _).mpr ⟨fun _ hid => hid, hold⟩).imp fun id u hu => ?_
        exact (typeUnit_of_kept h.keyed h.upright hkept hu.1).trans hu.2
      · rw [map_append]
        exact hplacedOld.append hplaced
      · show b.written ++ _ = _
        rw [hwritten, map_append, map_map]
        rfl

end Batch.Linked

/-- **Any number of tries keep the modules linked.** -/
theorem Tries.linked {b₀ : Batch} {w₀ w : World} (h : Tries o sourceRoot target b₀ w₀ b w)
    (hb : b₀.Linked o target start w₀.disk) : b.Linked o target start w.disk := by
  induction h with
  | start => exact hb
  | next _ htry ih => exact ih.attempt (yields_attempt htry).1

/-- **What is generated for a document or by a batch is closed under imports**, for all options.  A
document is read into a registry without types; every type that a module of its protocol imports has
its module among them.  A batch starts from a snapshot without types; after every try, and at the
end, the modules written so far import each other only. -/
theorem importClosed_of_generated :
    (∀ (call : ParseCall) (s s' : Scope) (p : Protocol), s.registry.entries = [] →
      Yields call.run s (.protocol p) s' → ∀ o : CompileOptions,
        protocolModules s'.catalog o p = (protocolUnits s'.catalog o p).map (List.map Prod.fst) ∧
          ∀ units, protocolUnits s'.catalog o p = .ok units → ImportClosed units) ∧
    ∀ (o : CompileOptions) (sourceRoot target : Path) (known : Snapshot) (w : World),
      known.registry.entries = [] →
        (∀ b w', Tries o sourceRoot target ⟨known, [], [], []⟩ w b w' →
          ∃ units, b.Wrote o target w.disk w'.disk units ∧ ImportClosed units) ∧
        ∀ files b w', Yields (compileBatch o sourceRoot target known files) w b w' →
          ∃ units, b.Wrote o target w.disk w'.disk units ∧ ImportClosed units := by
  refine ⟨fun call s s' p hs h o => ⟨protocolModules_eq _ _ _, fun units hunits => ?_⟩,
    fun o sourceRoot target known w hs => ?_⟩
  · have hupright : s.Upright := fun id hid => by simp [Registry.types, hs] at hid
    obtain ⟨hbuilds, hp⟩ := (call.leads_run (Scope.orderly_of_empty hs)).of_yields h
    exact importClosed_of_protocol hbuilds.orderly.keyed (hbuilds.upright hupright) hp
      (types_of_protocol hs h) hunits
  · have hkeyed : known.registry.Keyed known.catalog :=
      (Scope.orderly_of_empty (s := known.scope) hs).keyed
    have hupright : known.scope.Upright := fun id hid => by
      simp [Registry.types, Snapshot.scope, hs] at hid
    have hstart : Batch.Linked o target w.disk ⟨known, [], [], []⟩ w.disk := by
      refine ⟨hkeyed, hupright, [], ?_, .nil, rfl⟩
      rw [Registry.types, hs]
      exact .nil
    refine ⟨fun b w' h => (h.linked hstart).importClosed, fun files b w' h => ?_⟩
    obtain ⟨b₁, w₁, hrounds, h⟩ := yields_bind.mp h
    obtain ⟨_, w₂, hreport, h⟩ := yields_bind.mp h
    obtain ⟨rfl, rfl⟩ := yields_pure.mp h
    rw [yields_reportFailures hreport]
    exact ((tries_rounds hrounds).linked hstart).importClosed

/-- A protocol with types in two namespaces, whose message has an error. -/
def linkedText : String :=
  "@namespace(\"p\") protocol P \x7b @namespace(\"q\") fixed F(2); error E \x7b q.F f; \x7d " ++
    "void m(E x) throws E; \x7d"

/-- The full names that the modules of a protocol import, module by module. -/
def importedNames (c : Catalog) (o : CompileOptions) (p : Protocol) : Option (List (List String)) :=
  (protocolUnits c o p).toOption.map fun units => units.map fun u => u.2.references.map (·.1)

theorem importClosed_linked :
    (∃ p s', Yields (ParseCall.idl mixedDisk none linkedText).run (.initial true true)
        (.protocol p) s' ∧
      ∃ units, protocolUnits s'.catalog {} p = .ok units ∧
        units.map (fun u => u.2.references.map (·.1)) = [[], ["q.F"], ["p.E"]] ∧
        ImportClosed units) ∧
    ∃ b w', Yields (compileBatch {} ⟨"", ["src"]⟩ ⟨"", ["out"]⟩ .empty mixedFiles)
        (.onDisk mixedDisk) b w' ∧
      b.known.registry.names = ["B", "E", "A"] ∧
      ∃ units, b.Wrote {} ⟨"", ["out"]⟩ mixedDisk w'.disk units ∧ ImportClosed units := by
  have hread : succeeds (Idl.readIdl mixedDisk none linkedText) (.initial true true) (fun p s =>
      importedNames s.catalog {} p == some [[], ["q.F"], ["p.E"]]) = true := by
    decide +kernel
  have hbatch : succeeds (compileBatch {} ⟨"", ["src"]⟩ ⟨"", ["out"]⟩ .empty mixedFiles)
      (.onDisk mixedDisk) (fun b _ => b.known.registry.names == ["B", "E", "A"]) = true := by
    decide +kernel
  obtain ⟨p, s', hp, htest⟩ := exists_of_succeeds _ _ _ hread
  obtain ⟨b, w', hb, hnames⟩ := exists_of_succeeds _ _ _ hbatch
  have hcall : Yields (ParseCall.idl mixedDisk none linkedText).run (.initial true true)
      (.protocol p) s' := hp.bind .pure
  refine ⟨⟨p, s', hcall, ?_⟩, b, w', hb, beq_iff_eq.mp hnames, ?_⟩
  · rw [beq_iff_eq, importedNames, Option.map_eq_some_iff] at htest
    obtain ⟨units, hunits, htest⟩ := htest
    have hok : protocolUnits s'.catalog {} p = .ok units := by
      cases hr : protocolUnits s'.catalog {} p with
      | error cause =>
        rw [hr] at hunits
        cases hunits
      | ok units' =>
        rw [hr] at hunits
        rw [Option.some.inj hunits]
    exact ⟨units, hok, htest, (importClosed_of_generated.1 _ _ s' p rfl hcall {}).2 units hok⟩
  · exact (importClosed_of_generated.2 {} _ _ .empty (.onDisk mixedDisk) rfl).2 mixedFiles b w' hb

end Avroc
