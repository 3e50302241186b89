import Avroc.Proofs.File.Contents
import Avroc.Proofs.Idl.Agreement
import Avroc.Proofs.Module.Alike
import Avroc.Proofs.Module.Linking
import Avroc.Proofs.Module.Places

/-!
# Where the modules of a protocol lie

The modules of a protocol are those of its types and its own.  Types have legal full names, so their
modules lie below any directory that they are written to, each in a file of its own.  The name and
the namespace of a protocol document in JSON are not checked: its own module may lie anywhere, and
it is written over that of a type with the same path.

* `confined_protocol_iff` : **the modules of a protocol are confined exactly if** no part of its
  full name starts with a slash, and no type has its path.
* `Confined.written`, `Confined.exists_writeModules` : **what writing confined modules does.**
* `protocolModules_confined` : **the modules of all protocols that can be read.**
-/

namespace Avroc

open List

variable {cs : List Char} {c : Catalog} {p : Protocol} {files : List SourceFile} {f : SourceFile}
  {target : Path} {w w' : World}

/-! ### Paths of modules -/

theorem Path.rootOf_eq_empty : Path.rootOf cs = "" ↔ cs.head? ≠ some '/' := by
  unfold Path.rootOf
  split
  · simp
  · simp
  · simp
  · rename_i hslash
    refine iff_of_true rfl fun hc => ?_
    obtain ⟨rest, rfl⟩ := head?_eq_some_iff.mp hc
    exact hslash rest rfl

theorem Path.root_foldl_join {texts : List String} {p : Path} :
    (texts.foldl (fun path part => path.join (.ofString part)) p).root = "" ↔
      p.root = "" ∧ ∀ s ∈ texts, s.toList.head? ≠ some '/' := by
  induction texts generalizing p with
  | nil => simp
  | cons s texts ih =>
    have hjoin : (p.join (.ofString s)).root = "" ↔ p.root = "" ∧ s.toList.head? ≠ some '/' := by
      rw [← Path.rootOf_eq_empty, Path.join, Path.isAbsolute]
      by_cases h : Path.rootOf s.toList = "" <;> simp [Path.ofString, h]
    rw [foldl_cons, ih, hjoin, forall_mem_cons, and_assoc]

/-- **The path of a module is relative exactly if** no part of the full name starts with a slash. -/
theorem root_modulePath_iff (fullName : String) : (modulePath fullName).root = "" ↔
    ∀ part ∈ Text.splitString '.' fullName, part.toList.head? ≠ some '/' := by
  obtain ⟨front, last, he⟩ := (eq_nil_or_concat _).resolve_left (splitString_ne_nil '.' fullName)
  have hlast : (last ++ ".py").toList.head? ≠ some '/' ↔ last.toList.head? ≠ some '/' := by
    rw [String.toList_append]
    cases last.toList <;> simp
  rw [modulePath, Path.root_foldl_join, he, concat_eq_append]
  simp only [dropLast_concat, getLast?_concat, Option.getD_some, forall_mem_append,
    forall_mem_singleton, hlast, true_and]

theorem LegalFullName.root_modulePath {fullName : String} (h : LegalFullName fullName) :
    (modulePath fullName).root = "" := by
  rw [modulePath_of_legal h]

/-! ### Confined modules -/

/-- The modules stay below a directory that they are written to, each in a file of its own. -/
structure Confined (files : List SourceFile) : Prop where
  relative : ∀ f ∈ files, f.path.root = ""
  dots : ∀ f ∈ files, ".." ∉ f.path.parts
  distinct : (files.map (·.path)).Nodup

/-- Different types with legal full names have modules in different files. -/
theorem nodup_modulePaths {ids : List TypeId} (hlegal : ∀ id ∈ ids, LegalFullName (c.fullName id))
    (hnodup : (ids.map c.fullName).Nodup) :
    (ids.map fun id => modulePath (c.fullName id)).Nodup := by
  induction ids with
  | nil => exact nodup_nil
  | cons id ids ih =>
    obtain ⟨hid, hids⟩ := forall_mem_cons.mp hlegal
    rw [map_cons, nodup_cons] at hnodup ⊢
    refine ⟨fun hm => hnodup.1 ?_, ih hids hnodup.2⟩
    obtain ⟨other, ho, he⟩ := mem_map.mp hm
    rw [← modulePath_injective (hids other ho) hid he]
    exact mem_map_of_mem ho

/-- **The modules of a protocol are confined exactly if** no part of its full name starts with a
slash, and no type has its path. -/
theorem confined_protocol_iff (hlegal : ∀ id ∈ p.types, LegalFullName (c.fullName id))
    (hnodup : (p.types.map c.fullName).Nodup) (hpaths : files.map (·.path) =
      p.types.map (fun id => modulePath (c.fullName id)) ++ [modulePath p.fullName]) :
    Confined files ↔
      (∀ part ∈ Text.splitString '.' p.fullName, part.toList.head? ≠ some '/') ∧
        ∀ id ∈ p.types, modulePath (c.fullName id) ≠ modulePath p.fullName := by
  have hrelative : (∀ f ∈ files, f.path.root = "") ↔ (modulePath p.fullName).root = "" := by
    rw [← forall_mem_map (f := SourceFile.path) (P := fun path => path.root = ""), hpaths,
      forall_mem_append, forall_mem_map, forall_mem_singleton]
    exact and_iff_right fun id hid => (hlegal id hid).root_modulePath
  have hdistinct : (files.map (·.path)).Nodup ↔
      ∀ id ∈ p.types, modulePath (c.fullName id) ≠ modulePath p.fullName := by
    rw [hpaths, nodup_append]
    simp [nodup_modulePaths hlegal hnodup]
  have hdots : ∀ f ∈ files, ".." ∉ f.path.parts := by
    rw [← forall_mem_map (f := SourceFile.path) (P := fun path => ".." ∉ path.parts), hpaths,
      forall_mem_append, forall_mem_map, forall_mem_singleton]
    exact ⟨fun id _ => (plain_modulePath _).dots_notMem, (plain_modulePath _).dots_notMem⟩
  rw [← root_modulePath_iff, ← hrelative, ← hdistinct]
  exact ⟨fun h => ⟨h.relative, h.distinct⟩, fun h => ⟨h.1, hdots, h.2⟩⟩

/-! ### Protocols of the definition language -/

theorem isLegalName_of_isPlainName (h : isPlainName cs = true) :
    isLegalName (String.ofList cs) = true := by
  have hlast : cs.getLast? ≠ some '\n' := by
    intro hl
    cases isNamePart_of_isPlainName h (mem_of_getLast? hl)
  rw [isLegalName, String.toList_ofList, dropFinalNewline, if_neg hlast, h]

/-- The simple name at the end of an identifier is legal. -/
theorem Idl.Dotted.isLegalName {written : String} (h : Idl.Dotted written.toList) :
    isLegalName (splitName written none).1 = true := by
  rw [splitName]
  split
  · rename_i before after hsplit
    obtain ⟨he, hafter⟩ := Text.splitAtLast?_eq_some hsplit
    refine isLegalName_of_isPlainName (h after ?_)
    rw [he, Text.splitAtEach_mark, Text.splitAtEach_of_notMem hafter]
    exact mem_append_right _ (mem_singleton.mpr rfl)
  · rename_i hsplit
    have hdot := Text.splitAtLast?_eq_none_iff.mp hsplit
    have hplain := h written.toList (by simp [Text.splitAtEach_of_notMem hdot])
    have hlegal := isLegalName_of_isPlainName hplain
    rwa [String.ofList_toList] at hlegal

theorem joinName_text?_ofName (name : String) (space : Option String) :
    joinName name (Space.ofName space).text? = joinName name space := by
  cases space with
  | none => rfl
  | some s => by_cases hs : s = "" <;> simp [Space.ofName, Space.text?, joinName, spaceOf, hs]

/-- **Protocols of the definition language have legal full names.** -/
theorem Idl.legalFullName_of_readIdl {disk : Disk} {path : Option Path} {text : String}
    {s s' : Scope} (hc : s.registry.checksNames = true)
    (h : Yields (readIdl disk path text) s p s') : LegalFullName p.fullName := by
  obtain ⟨ts, c, c', hts, rfl, rfl, -, -, h⟩ := yields_readIdl h
  simp only [protocolDeclaration, yields_bind, yields_pure] at h
  obtain ⟨first, c₀, h₀, props, c₁, h₁, _, c₂, h₂, written, c₃, h₃, space, c₄, h₄, _, c₅, -,
    cursor, _, -, rfl, -⟩ := h
  obtain ⟨rfl, -⟩ := looks_peek.reads h₀
  obtain ⟨ts₁, rfl, hr₁⟩ := textual_properties.reads h₁
  obtain ⟨ts₂, rfl, hr₂⟩ := (textual_expectKeyword "protocol").reads h₂
  obtain ⟨ts₃, rfl, -⟩ := textual_identifier.reads h₃
  obtain ⟨-, hspace, -⟩ := yields_declaredSpace h₄
  obtain ⟨t, ht, hk, rfl⟩ := exists_of_identifier h₃
  have hdotted := dotted_of_tokenize hts t ((hr₂.1.suffix.trans hr₁.1.suffix).subset ht) hk
  rw [Protocol.fullName, joinName_text?_ofName]
  exact legalFullName_joinName hdotted.isLegalName (hspace hc)

/-! ### Writing confined modules -/

/-- The files have been written below a directory, each at a path and a place of its own and with
its text, and nothing else has changed. -/
structure WrittenBelow (target : Path) (files : List SourceFile) (paths : List Path) (d d' : Disk) :
    Prop where
  paths_eq : paths = files.map fun f => ⟨target.root, target.parts ++ f.path.parts⟩
  distinct : paths.Nodup
  place : ∀ f ∈ files, d'.resolve (target.join f.path) =
    ⟨"/", (d.resolve target).parts ++ f.path.parts⟩
  text : ∀ f ∈ files, d'.readText (target.join f.path) =
    .ok (String.ofList (Text.unifyNewlines f.content.toList))
  kept : d.KeptIn (fun place => ∃ f ∈ files,
    place = (d.resolve target).parts ++ f.path.parts) d'

theorem SourceFile.Named.parts_ne_nil (h : f.Named) : f.path.parts ≠ [] := by
  obtain ⟨stem, hlast⟩ := h.isModule
  intro he
  rw [he] at hlast
  cases hlast

theorem SourceFile.Named.plain_join (h : f.Named) (ht : target.Plain) :
    (target.join f.path).Plain := by
  obtain ⟨fullName, hpath⟩ := h
  exact ht.join (hpath ▸ plain_modulePath fullName)

namespace Confined

theorem tail (h : Confined (f :: files)) : Confined files where
  relative g hg := h.relative g (mem_cons_of_mem _ hg)
  dots g hg := h.dots g (mem_cons_of_mem _ hg)
  distinct := (nodup_cons.mp h.distinct).2

theorem join_eq (h : Confined files) (hf : f ∈ files) (target : Path) :
    target.join f.path = ⟨target.root, target.parts ++ f.path.parts⟩ := by
  rw [Path.join, if_neg (by simp [Path.isAbsolute, h.relative f hf])]

/-- Confined modules lie below the place of the directory. -/
theorem placeOf_eq (h : Confined files) (hf : f ∈ files) (d : Disk) (target : Path) :
    d.placeOf target f = (d.resolve target).parts ++ f.path.parts := by
  rw [Disk.placeOf, h.join_eq hf, ← Disk.climb_of_notMem (h.dots f hf) (d.resolve target).parts]
  exact foldl_append

theorem apart (h : Confined files) (d : Disk) (target : Path) :
    files.Pairwise fun f g => d.placeOf target f ≠ d.placeOf target g := by
  refine (pairwise_map.mp h.distinct).imp_of_mem fun {f g} hf hg hne heq => hne ?_
  rw [h.placeOf_eq hf, h.placeOf_eq hg, append_cancel_left_eq] at heq
  have hroot : f.path.root = g.path.root := (h.relative f hf).trans (h.relative g hg).symm
  cases hp : f.path
  cases hq : g.path
  simp_all

/-- **Confined modules that are written** all stand below the directory. -/
theorem written (h : Confined files) (hnamed : ∀ f ∈ files, f.Named) {paths : List Path}
    (hw : Yields (writeModules target files) w paths w') :
    WrittenBelow target files paths w.disk w'.disk := by
  obtain ⟨rfl, -, hplaced⟩ := yields_writeModules (fun f hf => (hnamed f hf).isModule) hw
  have hapart := h.apart w.disk target
  refine ⟨map_congr_left fun f hf => h.join_eq hf target, ?_, fun f hf => ?_, fun f hf => ?_, ?_⟩
  · refine pairwise_map.mpr (hapart.imp fun hne heq => hne ?_)
    rw [Disk.placeOf, Disk.placeOf, heq]
  · rw [hplaced.kept.resolve, ← h.placeOf_eq hf]
    rfl
  · obtain ⟨d₁, c, -, hread, hgets⟩ := hplaced.content hapart hf
    exact hgets.readText_eq hread
  · refine hplaced.kept_places.mono ?_
    rintro _ ⟨f, hf, rfl⟩
    exact ⟨f, hf, h.placeOf_eq hf _ _⟩

end Confined

/-- Nothing on the disk stands in the way of files that are written below a directory: only
directories on the way to them, and in their places at most files that can be decoded. -/
structure Disk.Admits (d : Disk) (target : Path) (files : List SourceFile) : Prop where
  start : d.root.kind? (d.start target) = some .directory
  way : ∀ f ∈ files, d.Way (d.start target) (target.parts ++ f.path.parts.dropLast)
  place : ∀ f ∈ files, d.root.kind? (d.placeOf target f) ≠ some .directory
  readable : ∀ f ∈ files, ∀ content, d.contentAt (d.placeOf target f) = some content →
    content.shown?.isSome = true

namespace Confined

variable {g : SourceFile}

section
variable (h : Confined files) (hf : f ∈ files)
include h hf

theorem placeOf_of_plain (ht : target.Plain) (d : Disk) :
    d.placeOf target f = d.start target ++ (target.parts ++ f.path.parts) := by
  rw [h.placeOf_eq hf, Disk.resolve_of_plain ht, append_assoc]

theorem dropLast_placeOf (hnamed : f.Named) (ht : target.Plain) (d : Disk) :
    (d.placeOf target f).dropLast =
      d.start target ++ (target.parts ++ f.path.parts.dropLast) := by
  have hne := hnamed.parts_ne_nil
  rw [h.placeOf_of_plain hf ht, dropLast_append_of_ne_nil (by simp [hne]),
    dropLast_append_of_ne_nil hne]

/-- A module does not stand in the way of another. -/
theorem not_prefix (hg : g ∈ files) (hf' : f.Named) (hg' : g.Named) (ht : target.Plain) (d : Disk) :
    ¬ d.placeOf target f <+: (d.placeOf target g).dropLast := by
  rw [h.placeOf_of_plain hf ht, h.dropLast_placeOf hg hg' ht, prefix_append_right_inj,
    prefix_append_right_inj]
  obtain ⟨a, ha⟩ := hf'
  obtain ⟨b, hb⟩ := hg'
  rw [ha, hb]
  exact modulePath_not_prefix a b

/-- One module can be written if nothing stands in its way. -/
theorem exists_writeModule (hnamed : f.Named) (ht : target.Plain)
    (ha : w.disk.Admits target files) :
    ∃ w', Yields (writeModule target f .calm) w (target.join f.path) w' := by
  obtain ⟨stem, hlast⟩ := hnamed.isModule
  have hplain := hnamed.plain_join ht
  have hlast' := Path.getLast?_join target hlast
  have hstart : w.disk.start (target.join f.path) = w.disk.start target := by
    rw [h.join_eq hf]
    rfl
  have hway : w.disk.Way (w.disk.start (target.join f.path))
      (target.join f.path).parts.dropLast := by
    rw [hstart, h.join_eq hf, dropLast_append_of_ne_nil hnamed.parts_ne_nil]
    exact ha.way f hf
  obtain ⟨d, hd⟩ := Disk.exists_replaceFile_of_way hplain hlast' (hstart ▸ ha.start) hway
    (ha.place f hf) f.content
  exact Avroc.exists_writeModule hlast' (Disk.last_ne_dots hplain hlast') hd fun content hc =>
    ha.readable f hf content ((Disk.readContent_iff_contentAt hplain).mp hc)

end

/-- A module that is written does not stand in the way of the others. -/
theorem admits_writeModule (h : Confined (f :: files)) (hnamed : ∀ g ∈ f :: files, g.Named)
    (ht : target.Plain) (ha : w.disk.Admits target (f :: files)) {path : Path}
    (hw : Yields (writeModule target f .calm) w path w') : w'.disk.Admits target files := by
  have hf : f ∈ f :: files := mem_cons_self
  have hmem : ∀ g ∈ files, g ∈ f :: files := fun g hg => mem_cons_of_mem _ hg
  obtain ⟨-, -, hchanged, -, -⟩ := contentAt_writeModule ((hnamed f hf).plain_join ht) hw
  have hstart : w'.disk.start target = w.disk.start target := by
    rw [Disk.start, Disk.start, hchanged.working]
  have hplace : ∀ g, w'.disk.placeOf target g = w.disk.placeOf target g := fun g => by
    rw [Disk.placeOf, Disk.placeOf, hchanged.resolve]
  have hapart : ∀ g ∈ files, w.disk.placeOf target g ≠ w.disk.placeOf target f := fun g hg =>
    ((pairwise_cons.mp (h.apart w.disk target)).1 g hg).symm
  refine ⟨?_, fun g hg front hfront => ?_, fun g hg hk => ?_, fun g hg content hcontent => ?_⟩
  · rw [hstart]
    exact hchanged.directory _ ha.start
  · -- the place of the written file is not on the way
    rw [hstart]
    cases hk : w'.disk.root.kind? (w.disk.start target ++ front) with
    | none => exact .inl rfl
    | some kind =>
      cases kind with
      | directory => exact .inr rfl
      | file content time =>
        have hne : w.disk.start target ++ front ≠ w.disk.placeOf target f := by
          intro he
          refine h.not_prefix hf (hmem g hg) (hnamed f hf) (hnamed g (hmem g hg)) ht w.disk ?_
          rw [← he, h.dropLast_placeOf (hmem g hg) (hnamed g (hmem g hg)) ht]
          exact (prefix_append_right_inj _).mpr hfront
        have hold := (hchanged.same _ content time hne).mp hk
        rcases ha.way g (hmem g hg) front hfront with hnone | hdir
        · rw [hnone] at hold
          cases hold
        · rw [hdir] at hold
          cases hold
  · rw [hplace] at hk
    rcases hchanged.made _ hk with hdir | ⟨_, rfl, hpre⟩
    · exact ha.place g (hmem g hg) hdir
    · exact h.not_prefix (hmem g hg) hf (hnamed g (hmem g hg)) (hnamed f hf) ht w.disk hpre
  · rw [hplace, hchanged.contentAt (hapart g hg)] at hcontent
    exact ha.readable g (hmem g hg) content hcontent

/-- **Confined modules can be written** wherever nothing stands in the way of any of them. -/
theorem exists_writeModules (h : Confined files) (hnamed : ∀ f ∈ files, f.Named)
    (ht : target.Plain) (ha : w.disk.Admits target files) :
    ∃ paths w', Yields (writeModules target files) w paths w' := by
  induction files generalizing w with
  | nil => exact ⟨[], w, yields_pure.mpr ⟨rfl, rfl⟩⟩
  | cons f files ih =>
    obtain ⟨w₁, hfirst⟩ :=
      h.exists_writeModule mem_cons_self (hnamed f mem_cons_self) ht ha
    obtain ⟨paths, w₂, hrest⟩ := ih h.tail (fun g hg => hnamed g (mem_cons_of_mem _ hg))
      (h.admits_writeModule hnamed ht ha hfirst)
    refine ⟨target.join f.path :: paths, w₂, ?_⟩
    rw [writeModules_cons]
    simp only [yields_bind, yields_pure]
    exact ⟨_, w₁, hfirst, paths, w₂, hrest, rfl, rfl⟩

end Confined

/-! ### Protocols that can be read -/

/-- **The modules of all protocols that can be read** in a registry that starts empty with names
checked, for all options.  There is one for each type and one for the protocol, no path has a double
dot, and the types have relative paths that differ.  All together are confined exactly if no part of
the full name of the protocol starts with a slash and no type has its path, which is to say, if the
full name is legal, that no type has it; in the definition language it is legal.  Confined modules
end below whatever directory they are written to, each in a file of its own, and they can be written
wherever nothing stands in their way.  The last part leaves out names that a file system refuses of
itself: those with a null character, or too long. -/
theorem protocolModules_confined (call : ParseCall) {s s' : Scope}
    (hempty : s.registry.entries = []) (hc : s.registry.checksNames = true) {p : Protocol}
    (hcall : Yields call.run s (.protocol p) s') (o : CompileOptions) {files : List SourceFile}
    (h : protocolModules s'.catalog o p = .ok files) :
    let paths := p.types.map fun id => modulePath (s'.catalog.fullName id)
    files.map (·.path) = paths ++ [modulePath p.fullName] ∧
      (∀ f ∈ files, ".." ∉ f.path.parts) ∧ (∀ path ∈ paths, path.root = "") ∧ paths.Nodup ∧
      (Confined files ↔
        (∀ part ∈ Text.splitString '.' p.fullName, part.toList.head? ≠ some '/') ∧
          modulePath p.fullName ∉ paths) ∧
      (LegalFullName p.fullName →
        (Confined files ↔ p.fullName ∉ p.types.map s'.catalog.fullName)) ∧
      (∀ disk path text, call = .idl disk path text → LegalFullName p.fullName) ∧
      (Confined files → ∀ (target : Path) (w : World),
        (∀ paths w', Yields (writeModules target files) w paths w' →
          paths.length = p.types.length + 1 ∧ WrittenBelow target files paths w.disk w'.disk) ∧
        (target.Plain → w.disk.Admits target files →
          ∃ paths w', Yields (writeModules target files) w paths w')) := by
  intro paths
  have hrun : ParseCall.runAll [call] s = ([.ok (.protocol p)], s') := by
    rw [ParseCall.runAll, ParseCall.runAll, hcall]
  have hlawful : s'.Lawful := by
    have hall := ParseCall.lawful_runAll hempty hc [call]
    rwa [hrun] at hall
  have hkeyed := ((call.leads_run (Scope.orderly_of_empty hempty)).of_yields hcall).1.orderly.keyed
  have htypes := types_of_protocol hempty hcall
  have hlegal : ∀ id ∈ p.types, LegalFullName (s'.catalog.fullName id) := fun id hid =>
    (hlawful.named (hkeyed.get?_fullName (htypes ▸ hid)).2).legalFullName
  have hnodup : (p.types.map s'.catalog.fullName).Nodup := by
    have hnames : s'.registry.types.map s'.catalog.fullName = s'.registry.names := by
      rw [Registry.types, map_map]
      exact map_congr_left hkeyed.fullName
    rw [htypes, hnames]
    exact hkeyed.nodup
  have hpaths := paths_of_protocolModules h
  have hnamed := named_of_protocolModules h
  have hiff : Confined files ↔
      (∀ part ∈ Text.splitString '.' p.fullName, part.toList.head? ≠ some '/') ∧
        modulePath p.fullName ∉ paths := by
    rw [confined_protocol_iff hlegal hnodup hpaths, mem_map, not_exists]
    simp only [not_and]
  refine ⟨hpaths, fun f hf => ?_, ?_, nodup_modulePaths hlegal hnodup, hiff, fun hp => ?_, ?_, ?_⟩
  · obtain ⟨fullName, he⟩ := hnamed f hf
    exact he ▸ (plain_modulePath fullName).dots_notMem
  · exact forall_mem_map.mpr fun id hid => (hlegal id hid).root_modulePath
  · have hmem : modulePath p.fullName ∈ paths ↔ p.fullName ∈ p.types.map s'.catalog.fullName := by
      simp only [paths, mem_map]
      exact exists_congr fun id => and_congr_right fun hid =>
        ⟨modulePath_injective (hlegal id hid) hp, congrArg modulePath⟩
    rw [hiff, hmem, ← root_modulePath_iff]
    exact and_iff_right hp.root_modulePath
  · rintro disk path text rfl
    obtain ⟨q, s₁, hq, hr⟩ := yields_bind.mp hcall
    obtain ⟨heq, rfl⟩ := yields_pure.mp hr
    cases heq
    exact Idl.legalFullName_of_readIdl hc hq
  · intro hconfined target w
    refine ⟨fun written w' hw => ?_, fun ht ha => hconfined.exists_writeModules hnamed ht ha⟩
    have hbelow := hconfined.written hnamed hw
    have hlength := congrArg List.length hpaths
    rw [length_map, length_append, length_map, length_singleton] at hlength
    refine ⟨?_, hbelow⟩
    rw [hbelow.paths_eq, length_map, hlength]

/-- A protocol of the definition language with types in two namespaces. -/
def scatteredText : String :=
  "@namespace(\"shop.api\") protocol Shop \x7b @namespace(\"shop\") fixed Key(2); " ++
    "record Item \x7b shop.Key key; \x7d void put(Item item); \x7d"

/-- The disk with nothing on it. -/
def bareDisk : Disk :=
  ⟨.directory [] 0, [], 0, []⟩

theorem bareDisk_admits (files : List SourceFile) (target : Path)
    (hplace : ∀ f ∈ files, bareDisk.placeOf target f ≠ []) : bareDisk.Admits target files := by
  have hkind : ∀ place, place ≠ [] → bareDisk.root.kind? place = none := by
    intro place hne
    cases place with
    | nil => exact absurd rfl hne
    | cons name place => exact Node.kind?_cons _ _ _
  have hstart : bareDisk.start target = [] := by
    rw [Disk.start]
    split <;> rfl
  refine ⟨by rw [hstart]; rfl, fun f _ front _ => ?_, fun f hf hk => ?_, fun f hf content hk => ?_⟩
  · rw [hstart, nil_append]
    cases front with
    | nil => exact .inr rfl
    | cons name front => exact .inl (hkind _ (cons_ne_nil _ _))
  · rw [hkind _ (hplace f hf)] at hk
    cases hk
  · obtain ⟨time, hk⟩ := Disk.contentAt_eq_some.mp hk
    rw [hkind _ (hplace f hf)] at hk
    cases hk

theorem protocolModules_confined_scattered :
    let call := ParseCall.idl bareDisk none scatteredText
    let s := Scope.initial true true
    let target : Path := ⟨"", ["out"]⟩
    let w : World := ⟨bareDisk, s.catalog, s.registry, [], .empty⟩
    (s.registry.entries = [] ∧ s.registry.checksNames = true ∧ target.Plain) ∧
    ∃ p s' files, Yields call.run s (.protocol p) s' ∧ protocolModules s'.catalog {} p = .ok files ∧
      files.map (·.path) =
        ([⟨"", ["shop", "Key.py"]⟩, ⟨"", ["shop", "api", "Item.py"]⟩,
          ⟨"", ["shop", "api", "Shop.py"]⟩] : List Path) ∧
      LegalFullName p.fullName ∧ Confined files ∧ w.disk.Admits target files ∧
      ∃ paths w', Yields (writeModules target files) w paths w' ∧ paths.length = 3 ∧
        WrittenBelow target files paths w.disk w'.disk := by
  intro call s target w
  have hread : succeeds (Idl.readIdl bareDisk none scatteredText) s (fun p s' =>
      p.types.length == 2 && p.fullName == "shop.api.Shop" &&
        p.types.map s'.catalog.fullName == ["shop.Key", "shop.api.Item"] &&
        (protocolModules s'.catalog {} p).toOption.isSome) = true := by
    decide +kernel
  obtain ⟨p, s', hp, htest⟩ := exists_of_succeeds _ _ _ hread
  simp only [Bool.and_eq_true, beq_iff_eq, Option.isSome_iff_exists] at htest
  obtain ⟨⟨⟨hlength, hname⟩, hnames⟩, files, hfiles⟩ := htest
  have hcall : Yields call.run s (.protocol p) s' :=
    hp.bind .pure
  have hmodules := eq_ok_of_toOption hfiles
  obtain ⟨hpaths, -, -, -, -, hlegal, hidl, hwrite⟩ :=
    protocolModules_confined call rfl rfl hcall {} hmodules
  have hp' := hidl _ _ _ rfl
  have hconfined := (hlegal hp').mpr (by rw [hname, hnames]; decide)
  have htarget : target.Plain :=
    ⟨.inl rfl, forall_mem_singleton.mpr ⟨by decide, by decide, by decide, by decide⟩⟩
  have hadmits : w.disk.Admits target files := by
    refine bareDisk_admits files target fun f hf => ?_
    rw [hconfined.placeOf_eq hf]
    exact cons_ne_nil _ _
  obtain ⟨paths, w', hw⟩ := (hwrite hconfined target w).2 htarget hadmits
  have hbelow := (hwrite hconfined target w).1 paths w' hw
  rw [hlength] at hbelow
  refine ⟨⟨rfl, rfl, htarget⟩, p, s', files, hcall, hmodules, ?_, hp', hconfined, hadmits,
    paths, w', hw, hbelow⟩
  have hmap : (p.types.map fun id => modulePath (s'.catalog.fullName id)) =
      (p.types.map s'.catalog.fullName).map modulePath := by
    rw [map_map]
    rfl
  rw [hpaths, hmap, hnames, hname]
  decide +kernel

/-- A protocol document in JSON whose namespace starts with a slash. -/
def rootedProtocolText : String :=
  "\x7b\"protocol\":\"p\",\"namespace\":\"/etc\"\x7d"

/-- A protocol of the definition language with a type that has its name. -/
def namesakeProtocolText : String :=
  "protocol P \x7b fixed P(1); \x7d"

/-- The first has its module outside of any directory, the second has two modules in one file. -/
theorem protocolModules_escape :
    (∃ p s' files, Yields (readProtocolText rootedProtocolText) (.initial true true) p s' ∧
      protocolModules s'.catalog {} p = .ok files ∧
      files.map (·.path) = ([⟨"/", ["etc", "p.py"]⟩] : List Path) ∧ ¬ Confined files) ∧
    ∃ p s' files, Yields (Idl.readIdl bareDisk none namesakeProtocolText)
      (.initial true true) p s' ∧ protocolModules s'.catalog {} p = .ok files ∧
      files.map (·.path) = ([⟨"", ["P.py"]⟩, ⟨"", ["P.py"]⟩] : List Path) ∧ ¬ Confined files := by
  have hpaths : ∀ (reading : Reading Protocol) (expected : List Path),
      succeeds reading (.initial true true) (fun p s' =>
        (protocolModules s'.catalog {} p).toOption.any fun files =>
          decide (files.map (·.path) = expected)) = true →
      ∃ p s' files, Yields reading (.initial true true) p s' ∧
        protocolModules s'.catalog {} p = .ok files ∧ files.map (·.path) = expected := by
    intro reading expected hread
    obtain ⟨p, s', hp, htest⟩ := exists_of_succeeds _ _ _ hread
    rw [Option.any_eq_true] at htest
    obtain ⟨files, hfiles, htest⟩ := htest
    exact ⟨p, s', files, hp, eq_ok_of_toOption hfiles, of_decide_eq_true htest⟩
  constructor
  · obtain ⟨p, s', files, hp, hfiles, hmap⟩ := hpaths (readProtocolText rootedProtocolText)
      [⟨"/", ["etc", "p.py"]⟩] (by decide +kernel)
    refine ⟨p, s', files, hp, hfiles, hmap, fun hconfined => ?_⟩
    obtain ⟨f, hf, hpath⟩ : ∃ f ∈ files, f.path = ⟨"/", ["etc", "p.py"]⟩ :=
      mem_map.mp (hmap ▸ mem_cons_self)
    have hroot := hconfined.relative f hf
    rw [hpath] at hroot
    exact absurd hroot (by decide)
  · obtain ⟨p, s', files, hp, hfiles, hmap⟩ := hpaths
      (Idl.readIdl bareDisk none namesakeProtocolText) [⟨"", ["P.py"]⟩, ⟨"", ["P.py"]⟩]
      (by decide +kernel)
    refine ⟨p, s', files, hp, hfiles, hmap, fun hconfined => ?_⟩
    have hdistinct := hconfined.distinct
    rw [hmap] at hdistinct
    exact (nodup_cons.mp hdistinct).1 mem_cons_self

end Avroc
