import Avroc.Proofs.Batch.Accounting
import Avroc.Proofs.Batch.Confluence
import Avroc.Proofs.File.Contents

/-!
# Batches in any order

The files of a batch can be given in any order, if no full name is defined twice, every reference
can mean one full name only, and no two modules share a place.

* `compileBatch_perm` : **a batch brings the same whatever the order of its files.**
-/

namespace Avroc

open List

variable {d : Disk} {modules modules' : List SourceFile} {path target sourceRoot : Path}
  {known : Snapshot} {name a b : String} {o : CompileOptions} {x : Path × Error} {file : SourceFile}
  {inside : Option String} {v : Json} {j : Job}

/-- The document of a type of the snapshot, by its full name. -/
def Snapshot.document? (s : Snapshot) (fullName : String) : Option (Except Misuse Json) :=
  (s.registry.get? fullName).map fun id => (Schema.named id).document s.catalog

/-- Different full names that the files define have their modules in different places. -/
def Spread (d : Disk) (target : Path) (paths : List Path) : Prop :=
  ∀ p ∈ paths, ∀ q ∈ paths, ∀ a b, d.Defines p a → d.Defines q b →
    d.resolve (target.join (modulePath a)) = d.resolve (target.join (modulePath b)) → a = b

/-! ### Gained types -/

namespace Job

variable {done : List (Path × List TypeId)} {s : Snapshot} {name : String} {id : TypeId}

theorem Accepts.exists_name (hj : j.known.scope.Solid) (h : j.Accepts done s)
    (hid : id ∈ done.flatMap (·.2)) :
    ∃ name, s.registry.get? name = some id ∧ j.known.registry.contains name = false := by
  obtain ⟨new, he, htypes, hnd, hgained⟩ := h.new_entries hj
  rw [htypes] at hid
  obtain ⟨e, hm, rfl⟩ := mem_map.mp hid
  have hfresh := (hgained e hm).new
  refine ⟨e.1, ?_, hfresh⟩
  obtain ⟨l₁, l₂, rfl⟩ := append_of_mem hm
  rw [map_append, map_cons, nodup_append] at hnd
  rw [Registry.get?, he, lookup_append,
    show List.lookup e.1 _ = none from Registry.contains_eq_false_iff.mp hfresh, Option.none_or]
  refine lookup_eq_some_iff.mpr ⟨l₁, l₂, rfl, fun y hy => ?_⟩
  exact bne_iff_ne.mpr (hnd.2.2 y.1 (mem_map_of_mem hy) e.1 mem_cons_self).symm

theorem Accepts.gained (hj : j.known.scope.Solid) (h : j.Accepts done s)
    (hid : s.registry.get? name = some id) (hn : j.known.registry.contains name = false) :
    id ∈ done.flatMap (·.2) ∧ j.Gained done s (name, id) := by
  obtain ⟨new, he, htypes, -, hgained⟩ := h.new_entries hj
  rw [Registry.get?, he, lookup_append,
    show List.lookup name _ = none from Registry.contains_eq_false_iff.mp hn, Option.none_or] at hid
  obtain ⟨l₁, l₂, rfl, -⟩ := lookup_eq_some_iff.mp hid
  refine ⟨?_, hgained _ (by simp)⟩
  rw [htypes]
  simp

end Job

/-- Modules of different legal full names lie in different places. -/
theorem eq_of_resolve_modulePath (ha : LegalFullName a) (hb : LegalFullName b)
    (h : d.resolve (target.join (modulePath a)) = d.resolve (target.join (modulePath b))) :
    a = b := by
  have hplace : ∀ {name : String}, LegalFullName name →
      (d.resolve (target.join (modulePath name))).parts =
        (d.resolve target).parts ++ (modulePath name).parts := by
    intro name hn
    rw [← Disk.climb_of_notMem (plain_modulePath name).dots_notMem, modulePath_of_legal hn]
    exact foldl_append
  have hparts := congrArg Path.parts h
  rw [hplace ha, hplace hb, append_cancel_left_eq] at hparts
  refine modulePath_injective ha hb ?_
  rw [modulePath_of_legal ha, modulePath_of_legal hb] at hparts ⊢
  exact congrArg (Path.mk "") hparts

/-! ### Ends of two runs -/

namespace Settles

variable {paths : List Path} {compiled compiled' : List (Path × List TypeId)}
  {errors errors' : List (Path × Error)} {final final' : Snapshot}

theorem onDisk {d' : Disk} (h : Settles ⟨o, sourceRoot, d, known⟩ paths compiled errors final)
    (hd : ∀ path ∈ paths, d'.readContent path = d.readContent path) :
    Settles ⟨o, sourceRoot, d', known⟩ paths compiled errors final := by
  have hread : ∀ path ∈ paths, Job.read ⟨o, sourceRoot, d', known⟩ path =
      Job.read ⟨o, sourceRoot, d, known⟩ path := fun path hp => readSchemaFile_congr (hd path hp)
  have haccepts : ∀ {done : List (Path × List TypeId)} {s : Snapshot},
      (∀ x ∈ done, x.1 ∈ paths) → Job.Accepts ⟨o, sourceRoot, d, known⟩ done s →
        Job.Accepts ⟨o, sourceRoot, d', known⟩ done s := by
    intro done s hsub ha
    induction ha with
    | start => exact .start
    | @gain done s t path type _ hy hplace ih =>
      have hp := hsub _ (mem_append_right _ (mem_singleton_self _))
      refine .gain (ih fun x hx => hsub x (mem_append_left _ hx)) ?_ hplace
      rw [hread path hp]
      exact hy
  have hsub : ∀ x ∈ compiled, x.1 ∈ paths := fun x hx =>
    h.perm.subset (mem_append_left _ (mem_map_of_mem hx))
  refine ⟨h.perm, haccepts hsub h.accepts, fun x hx => ?_⟩
  have hp := h.perm.subset (mem_append_right _ (mem_map_of_mem hx))
  refine (h.errors x hx).imp ?_ fun ⟨hr, he⟩ => ⟨hr, ?_⟩
  · rintro ⟨done, s, type, t, hpre, ha, hy, hplace⟩
    refine ⟨done, s, type, t, hpre, haccepts (fun y hy => hsub y (hpre.subset hy)) ha, ?_, hplace⟩
    rw [hread x.1 hp]
    exact hy
  · rw [hread x.1 hp]
    exact he

section
variable (h : Settles j paths compiled errors final)
include h

theorem reach (hnd : paths.Nodup) :
    j.Reach paths compiled final :=
  ⟨h.accepts, (nodup_append.mp (h.perm.nodup_iff.mpr hnd)).1, fun _ hx =>
    h.perm.subset (mem_append_left _ (mem_map_of_mem hx))⟩

/-- A compiled file has no error. -/
theorem fate_compiled (hj : j.Sound paths) (hnd : paths.Nodup) (hp : path ∈ compiled.map (·.1)) :
    j.Fate paths final path none := by
  obtain ⟨x, hx, rfl⟩ := mem_map.mp hp
  obtain ⟨front, r, type, t, hpre, hr, hy, hplace, -, hkept⟩ := h.accepts.exists_read hj.solid hx
  have hfront : front <+: compiled := (prefix_append _ _).trans hpre
  refine .read ⟨front, (h.reach hnd).of_isPrefix hfront hr, fun hm => ?_⟩
    (hr.kept_of_isPrefix hj.solid h.accepts hfront) hy hplace fun _ => hkept
  have hnodup := (hpre.sublist.map (·.1)).nodup (h.reach hnd).nodup
  rw [map_append, nodup_append] at hnodup
  exact hnodup.2.2 x.1 hm x.1 (mem_singleton_self _) rfl

/-- A file with an error has that error. -/
theorem fate_error (hj : j.Sound paths) (hnd : paths.Nodup) (hx : x ∈ errors) :
    j.Fate paths final x.1 (some x.2) := by
  have hnot : x.1 ∉ compiled.map (·.1) := fun hm =>
    (nodup_append.mp (h.perm.nodup_iff.mpr hnd)).2.2 x.1 hm x.1 (mem_map_of_mem hx) rfl
  rcases h.errors x hx with ⟨done, s, type, t, hpre, hs, hy, hplace⟩ | ⟨-, he⟩
  · refine .read ⟨done, (h.reach hnd).of_isPrefix hpre hs, fun hm => hnot ?_⟩
      (hs.kept_of_isPrefix hj.solid h.accepts hpre) hy hplace fun hn => nomatch hn
    exact (hpre.sublist.map _).subset hm
  · exact .failed ⟨compiled, h.reach hnd, hnot⟩ he

theorem settled (hj : j.Sound paths) (hnd : paths.Nodup) : j.Settled paths final where
  reach := ⟨compiled, h.reach hnd⟩
  fate path hp := by
    rcases mem_append.mp (h.perm.symm.subset hp) with hm | hm
    · exact ⟨none, h.fate_compiled hj hnd hm⟩
    · obtain ⟨x, hx, rfl⟩ := mem_map.mp hm
      exact ⟨some x.2, h.fate_error hj hnd hx⟩

end

section
variable (hj : j.Sound paths) (hnd : paths.Nodup) (h : Settles j paths compiled errors final)
  (h' : Settles j paths compiled' errors' final')
include hj hnd h h'

theorem mem_compiled (hp : path ∈ compiled.map (·.1)) : path ∈ compiled'.map (·.1) := by
  have hm := h.perm.subset (mem_append_left _ hp)
  rcases mem_append.mp (h'.perm.symm.subset hm) with hp' | hp'
  · exact hp'
  · obtain ⟨x, hx, rfl⟩ := mem_map.mp hp'
    have := Job.Fate.unique hj (h.settled hj hnd) (h'.settled hj hnd) hm
      (h.fate_compiled hj hnd hp) (h'.fate_error hj hnd hx)
    cases this

theorem mem_errors (hx : x ∈ errors) : x ∈ errors' := by
  have hm := h.perm.subset (mem_append_right _ (mem_map_of_mem hx))
  have hunique : ∀ {verdict}, j.Fate paths final' x.1 verdict → some x.2 = verdict :=
    Job.Fate.unique hj (h.settled hj hnd) (h'.settled hj hnd) hm (h.fate_error hj hnd hx)
  rcases mem_append.mp (h'.perm.symm.subset hm) with hp' | hp'
  · cases hunique (h'.fate_compiled hj hnd hp')
  · obtain ⟨y, hy, heq⟩ := mem_map.mp hp'
    have he := hunique (heq ▸ h'.fate_error hj hnd hy)
    obtain rfl : y = x := Prod.ext heq (Option.some.inj he).symm
    exact hy

/-- The same types have the same documents. -/
theorem document?_eq (name : String) : final.document? name = final'.document? name := by
  obtain ⟨ρ, ha, hnames⟩ := (h.settled hj hnd).agree hj (h'.settled hj hnd)
  have hn := hnames name
  unfold Snapshot.document?
  rw [Registry.contains, Registry.contains] at hn
  cases hid : final.registry.get? name with
  | none =>
    rw [hid] at hn
    rw [Option.isNone_iff_eq_none.mp (Option.isSome_eq_false_iff.mp hn.symm)]
    rfl
  | some id =>
    rw [hid] at hn
    obtain ⟨id', hid'⟩ := Option.isSome_iff_exists.mp hn.symm
    have halike : (Schema.named id).Alike ρ (.named id') :=
      ⟨id', rfl, ha.named name id id' hid hid'⟩
    rw [hid', Option.map_some, Option.map_some]
    exact congrArg some (Schema.document_alike ha.alike ha.range halike)

/-- The same modules are written. -/
theorem mem_modules
    (hm : List.Forall₂ (final.catalog.HasModule j.options) (compiled.flatMap (·.2)) modules)
    (hm' : List.Forall₂ (final'.catalog.HasModule j.options) (compiled'.flatMap (·.2)) modules')
    (hfile : file ∈ modules) : file ∈ modules' := by
  obtain ⟨ρ, ha, hnames⟩ := (h.settled hj hnd).agree hj (h'.settled hj hnd)
  obtain ⟨id, hid, hmodule⟩ := exists_mem_of_forall₂ hm.flip hfile
  obtain ⟨name, hget, hnew⟩ := h.accepts.exists_name hj.solid hid
  have hn := hnames name
  rw [Registry.contains, Registry.contains, hget] at hn
  obtain ⟨id', hget'⟩ := Option.isSome_iff_exists.mp hn.symm
  obtain ⟨file', hfile', hmodule'⟩ :=
    exists_mem_of_forall₂ hm' (h'.accepts.gained hj.solid hget' hnew).1
  have hsame : typeModule final.catalog j.options id = typeModule final'.catalog j.options id' :=
    typeModule_alike ha.alike ha.range j.options (ha.named name id id' hget hget')
  rw [hmodule.2, hmodule'.2, Except.ok.injEq] at hsame
  exact hsame ▸ hfile'

end

/-- No two modules share a place. -/
theorem apart (h : Settles j paths compiled errors final) (hj : j.known.scope.Solid)
    (hspread : j.known.registry.checksNames = true ∨ Spread j.disk target paths)
    (hm : List.Forall₂ (final.catalog.HasModule j.options) (compiled.flatMap (·.2)) modules) :
    modules.Pairwise fun f g => j.disk.placeOf target f ≠ j.disk.placeOf target g := by
  obtain ⟨new, -, htypes, hnd, hgained⟩ := h.accepts.new_entries hj
  have hpaths : modules.map (·.path) = new.map fun e => modulePath e.1 := by
    rw [paths_of_forall₂ hm, htypes, map_map]
    exact map_congr_left fun e he => congrArg modulePath (hgained e he).fullName
  suffices hnew : new.Pairwise fun e e' => j.disk.resolve (target.join (modulePath e.1)) ≠
      j.disk.resolve (target.join (modulePath e'.1)) by
    have hmap : (new.map fun e => modulePath e.1).Pairwise fun p q =>
        j.disk.resolve (target.join p) ≠ j.disk.resolve (target.join q) :=
      pairwise_map.mpr hnew
    rw [← hpaths, pairwise_map] at hmap
    exact hmap.imp fun hne hplace => hne (congrArg (Path.mk "/") hplace)
  refine (pairwise_map.mp hnd).imp_of_mem fun {e e'} he he' hne heq => hne ?_
  have hgain := hgained e he
  have hgain' := hgained e' he'
  rcases hspread with hchecks | hspread
  · have hlegal : ∀ {e}, j.Gained compiled final e → LegalFullName e.1 := fun hg =>
      hg.fullName ▸ (hg.named hchecks).legalFullName
    exact eq_of_resolve_modulePath (hlegal hgain) (hlegal hgain') heq
  · obtain ⟨x, hx, hdef⟩ := hgain.file
    obtain ⟨x', hx', hdef'⟩ := hgain'.file
    have hsub : ∀ x ∈ compiled, x.1 ∈ paths := fun x hx =>
      h.perm.subset (mem_append_left _ (mem_map_of_mem hx))
    exact hspread x.1 (hsub x hx) x'.1 (hsub x' hx') _ _ hdef hdef' heq

end Settles

/-- A batch whose files are there at the start settles them as they are at the start. -/
theorem settles_on_start (hknown : known.scope.Solid) {files : List SourceInput}
    (hnd : (files.map (·.path)).Nodup)
    (hs : ∀ source ∈ files, source.path.suffix = SourceFormat.schema.extension) {b : Batch}
    {w w' : World} (hfiles : ∀ source ∈ files, w.disk.isFile source.path = true)
    (h : Yields (compileBatch o sourceRoot target known files) w b w') :
    ∃ compiled errors modules,
      Settles ⟨o, sourceRoot, w.disk, known⟩ (files.map (·.path)) compiled errors b.known ∧
      b.errors = errors.map (·.2) ∧
      List.Forall₂ (b.known.catalog.HasModule o) (compiled.flatMap (·.2)) modules ∧
      PlacedAll target modules w.disk w'.disk ∧
      b.written = modules.map fun file => target.join file.path := by
  obtain ⟨-, compiled, errors, modules, hsettles, herrors, hmodules, hplaced, hwritten⟩ :=
    settles_compileBatch hknown hnd hs h
  refine ⟨compiled, errors, modules, hsettles.onDisk fun path hp => ?_, herrors, hmodules, hplaced,
    hwritten⟩
  obtain ⟨source, hm, rfl⟩ := mem_map.mp hp
  obtain ⟨c, hc⟩ := Disk.exists_readContent_of_isFile (hfiles source hm)
  obtain ⟨place, -, hl, -⟩ := Disk.readContent_eq_ok.mp hc
  rw [hc, hplaced.kept.readContent hl (not_modulePlace (hs source hm) hl) hc]

/-- The same modules that are placed apart on one disk have the same text, and the same content
unless their path has double dots. -/
theorem PlacedAll.same_content {d₁ d₂ : Disk} (h₁ : PlacedAll target modules d d₁)
    (h₂ : PlacedAll target modules' d d₂)
    (hapart₁ : modules.Pairwise fun f g => d.placeOf target f ≠ d.placeOf target g)
    (hapart₂ : modules'.Pairwise fun f g => d.placeOf target f ≠ d.placeOf target g)
    (hfile₁ : file ∈ modules) (hfile₂ : file ∈ modules') :
    d₁.readText (target.join file.path) = d₂.readText (target.join file.path) ∧
      (".." ∉ (target.join file.path).parts →
        d₁.readContent (target.join file.path) = d₂.readContent (target.join file.path)) := by
  obtain ⟨e₁, c₁, hkept₁, hr₁, hc₁⟩ := h₁.content hapart₁ hfile₁
  obtain ⟨e₂, c₂, hkept₂, hr₂, hc₂⟩ := h₂.content hapart₂ hfile₂
  refine ⟨(hc₁.readText_eq hr₁).trans (hc₂.readText_eq hr₂).symm, fun hdots => ?_⟩
  have hd₁ := hc₁.congr fun c => hkept₁.readContent_iff hdots (not_not_intro rfl)
  have hd₂ := hc₂.congr fun c => hkept₂.readContent_iff hdots (not_not_intro rfl)
  rw [hr₁, hr₂, hd₁.unique hd₂]

/-- **A batch brings the same whatever the order of its files**, if they are there at the start.
The same files are compiled, which are those without an error, the same errors are reported, the
types have the same documents, and the same modules are written with the same text.  The content is
the same to the byte unless a path has double dots, which may lead to an older file only after
another module has been written. -/
theorem compileBatch_perm (o : CompileOptions) (sourceRoot target : Path) (known : Snapshot)
    (hknown : known.scope.Solid) {files files' : List SourceInput} (hperm : files.Perm files')
    (hnd : (files.map (·.path)).Nodup) (hs : ∀ source ∈ files, source.path.suffix = ".avsc")
    {w : World} (hfiles : ∀ source ∈ files, w.disk.isFile source.path = true)
    (hclear : Unambiguous w.disk known.registry (files.map (·.path)))
    (hspread : known.registry.checksNames = true ∨ Spread w.disk target (files.map (·.path)))
    {b b' : Batch} {w₁ w₂ : World}
    (h : Yields (compileBatch o sourceRoot target known files) w b w₁)
    (h' : Yields (compileBatch o sourceRoot target known files') w b' w₂) :
    (∃ compiled compiled',
      (⟨o, sourceRoot, w.disk, known⟩ : Job).Accepts compiled b.known ∧
      (⟨o, sourceRoot, w.disk, known⟩ : Job).Accepts compiled' b'.known ∧
      (compiled.map (fun x => some x.1) ++ b.errors.map Error.path?).Perm
        (files.map fun source => some source.path) ∧
      (compiled'.map (fun x => some x.1) ++ b'.errors.map Error.path?).Perm
        (files'.map fun source => some source.path) ∧
      ∀ path, path ∈ compiled.map (·.1) ↔ path ∈ compiled'.map (·.1)) ∧
    (∀ e, e ∈ b.errors ↔ e ∈ b'.errors) ∧
    (∀ name, b.known.document? name = b'.known.document? name) ∧
    (∀ path, path ∈ b.written ↔ path ∈ b'.written) ∧
    ∀ path ∈ b.written, w₁.disk.readText path = w₂.disk.readText path ∧
      (".." ∉ path.parts → w₁.disk.readContent path = w₂.disk.readContent path) := by
  have hpaths := hperm.map SourceInput.path
  have hj : Job.Sound ⟨o, sourceRoot, w.disk, known⟩ (files.map (·.path)) := ⟨hknown, hclear⟩
  obtain ⟨compiled, errors, modules, hend, herrors, hmodules, hplaced, hwritten⟩ :=
    settles_on_start hknown hnd hs hfiles h
  obtain ⟨compiled', errors', modules', hend', herrors', hmodules', hplaced', hwritten'⟩ :=
    settles_on_start hknown (hpaths.nodup_iff.mp hnd)
      (fun source hm => hs source (hperm.symm.subset hm))
      (fun source hm => hfiles source (hperm.symm.subset hm)) h'
  have honce := herrors ▸ hend.each_once hknown
  have honce' := herrors' ▸ hend'.each_once hknown
  have hend' :
      Settles ⟨o, sourceRoot, w.disk, known⟩ (files.map (·.path)) compiled' errors' b'.known :=
    ⟨hend'.perm.trans hpaths.symm, hend'.accepts, hend'.errors⟩
  have hsame : ∀ file, file ∈ modules ↔ file ∈ modules' := fun file =>
    ⟨hend.mem_modules hj hnd hend' hmodules hmodules',
      hend'.mem_modules hj hnd hend hmodules' hmodules⟩
  have hapart := hend.apart hknown hspread hmodules
  have hapart' := hend'.apart hknown hspread hmodules'
  refine ⟨⟨compiled, compiled', hend.accepts, hend'.accepts, honce, honce', fun path => ?_⟩,
    fun e => ?_, hend.document?_eq hj hnd hend', fun path => ?_, fun path hp => ?_⟩
  · exact ⟨hend.mem_compiled hj hnd hend', hend'.mem_compiled hj hnd hend⟩
  · have hiff : ∀ x, x ∈ errors ↔ x ∈ errors' := fun x =>
      ⟨hend.mem_errors hj hnd hend', hend'.mem_errors hj hnd hend⟩
    simp only [herrors, herrors', mem_map, hiff]
  · simp only [hwritten, hwritten', mem_map, hsame]
  · rw [hwritten] at hp
    obtain ⟨file, hm, rfl⟩ := mem_map.mp hp
    exact hplaced.same_content hplaced' hapart hapart' hm ((hsame file).mp hm)

/-! ### Two files -/

/-- A disk with two schema files. -/
def pairDisk (first second : String) : Disk :=
  ⟨.directory [("a.avsc", .file (.text first) 0), ("b.avsc", .file (.text second) 0)] 0, [], 0, []⟩

/-- The files of the disk. -/
def pairFiles : List SourceInput :=
  [⟨⟨"", ["a.avsc"]⟩, .schema⟩, ⟨⟨"", ["b.avsc"]⟩, .schema⟩]

/-- Whether the document describes a type of this kind and name. -/
def isDefinition (word name : String) (inside : Option String) : Option Json → Bool
  | some (.object members) =>
    (match Members.get? members "type" with
      | some (.string kind) => kind == word
      | _ => false) && definedName? members .root == some (name, inside)
  | _ => false

theorem eq_of_isDefinition {word : String} {document : Option Json}
    (h : isDefinition word name inside document = true) : ∃ members : Members,
      document = some (.object members) ∧ members.get? "type" = some (.string word) ∧
        definedName? members .root = some (name, inside) := by
  unfold isDefinition at h
  split at h
  · rename_i members
    rw [Bool.and_eq_true, beq_iff_eq] at h
    refine ⟨members, rfl, ?_, h.2⟩
    split at h
    · rename_i kind hk
      rw [hk, beq_iff_eq.mp h.1]
    · cases h.1
  · cases h

/-- A file with a fixed type defines that type and refers to none. -/
theorem names_of_fixed (h : isDefinition "fixed" name inside (d.document? path) = true)
    {o : Occurrence} (hv : d.document? path = some v) (ho : Occurs v .root o) :
    o = .definition (joinName name inside) := by
  obtain ⟨members, hdoc, ht, hname⟩ := eq_of_isDefinition h
  cases hv.symm.trans hdoc
  obtain ⟨_, _, hname', rfl⟩ := ho.of_fixed ht
  cases hname.symm.trans hname'
  rfl

/-- Two files without a common name are unambiguous, if a reference in them cannot mean two
names. -/
theorem unambiguous_pair {known : Registry} (hknown : known.entries = []) (hab : a ≠ b)
    (hfirst : ∀ name, d.Defines ⟨"", ["a.avsc"]⟩ name → name = a)
    (hsecond : ∀ name, d.Defines ⟨"", ["b.avsc"]⟩ name → name = b)
    (hclear : ∀ path ∈ pairFiles.map (·.path), ∀ name space, d.Refers path name space →
      name ≠ a ∧ name ≠ b) : Unambiguous d known (pairFiles.map (·.path)) := by
  have hdefines : ∀ path ∈ pairFiles.map (·.path), ∀ name, d.Defines path name →
      path = ⟨"", ["a.avsc"]⟩ ∧ name = a ∨ path = ⟨"", ["b.avsc"]⟩ ∧ name = b := by
    intro path hp name hn
    rcases mem_pair.mp hp with rfl | rfl
    · exact .inl ⟨rfl, hfirst name hn⟩
    · exact .inr ⟨rfl, hsecond name hn⟩
  have hnone : ∀ name, known.contains name = false := by
    intro name
    rw [Registry.contains, Registry.get?, hknown]
    rfl
  refine ⟨fun p hp q hq name hn hn' => ?_, fun p _ name _ => hnone name,
    fun p hp name space text hrefers _ _ havailable => ?_⟩
  · rcases hdefines p hp name hn with ⟨rfl, rfl⟩ | ⟨rfl, rfl⟩ <;>
      rcases hdefines q hq _ hn' with ⟨rfl, h⟩ | ⟨rfl, h⟩
    · rfl
    · exact absurd h hab
    · exact absurd h.symm hab
    · rfl
  · obtain ⟨hna, hnb⟩ := hclear p hp name space hrefers
    rcases havailable.2 with hc | ⟨q, hq, hn⟩
    · rw [hnone] at hc
      cases hc
    · rcases hdefines q hq name hn with ⟨-, h⟩ | ⟨-, h⟩
      · exact hna h
      · exact hnb h

/-- A record that refers to the type of the other file. -/
def referringDisk : Disk :=
  pairDisk
    ("\x7b\"type\":\"record\",\"name\":\"p.A\",\"fields\":[" ++
      "\x7b\"name\":\"b\",\"type\":\"B\"\x7d]\x7d")
    "\x7b\"type\":\"fixed\",\"name\":\"p.B\",\"size\":2\x7d"

/-- Whether the document describes a record with one field, of the type of this name. -/
def hasOneField (name : String) : Option Json → Bool
  | some (.object members) =>
    match Members.get? members "fields" with
    | some (.array [.object field]) =>
      match Members.get? field "type" with
      | some (.string type) => type == name
      | _ => false
    | _ => false
  | _ => false

/-- The first file has the names of its record and of the type of its field. -/
theorem names_of_referring {o : Occurrence} (hv : referringDisk.document? ⟨"", ["a.avsc"]⟩ = some v)
    (ho : Occurs v .root o) :
    o = .definition "p.A" ∨ o = .reference "B" (some "p") := by
  have hdef : isDefinition "record" "A" (some "p") (referringDisk.document? ⟨"", ["a.avsc"]⟩) =
      true := by
    decide +kernel
  have hfield : hasOneField "B" (referringDisk.document? ⟨"", ["a.avsc"]⟩) = true := by
    decide +kernel
  obtain ⟨members, hdoc, ht, hname⟩ := eq_of_isDefinition hdef
  rw [hdoc] at hfield
  cases hv.symm.trans hdoc
  obtain ⟨name, inside, hname', ho⟩ := ho.of_record ht
  cases hname.symm.trans hname'
  refine ho.imp id ?_
  rintro ⟨items, field, v, hitems, hmem, hv, ho⟩
  dsimp only [hasOneField] at hfield
  split at hfield
  · rename_i field' hitems'
    cases hitems.symm.trans hitems'
    cases mem_singleton.mp hmem
    split at hfield
    · rename_i name hn
      cases hv.symm.trans hn
      rw [beq_iff_eq.mp hfield] at ho
      exact ho.of_string
    · cases hfield
  · cases hfield

/-- In one order the record has to wait for the other file, in the other it has not. -/
theorem compileBatch_perm_referring :
    ∃ b b' w₁ w₂,
      Yields (compileBatch {} ⟨"", []⟩ ⟨"", ["out"]⟩ .empty pairFiles)
        (.onDisk referringDisk) b w₁ ∧
      Yields (compileBatch {} ⟨"", []⟩ ⟨"", ["out"]⟩ .empty pairFiles.reverse)
        (.onDisk referringDisk) b' w₂ ∧
      b.known.registry.names = ["p.B", "p.A"] ∧ b'.known.registry.names = ["p.B", "p.A"] ∧
      (∀ name, b.known.document? name = b'.known.document? name) ∧
      (∀ path, path ∈ b.written ↔ path ∈ b'.written) ∧
      ∀ path ∈ b.written, w₁.disk.readText path = w₂.disk.readText path := by
  obtain ⟨b, w₁, h, hnames⟩ := exists_of_succeeds
    (compileBatch {} ⟨"", []⟩ ⟨"", ["out"]⟩ .empty pairFiles) (.onDisk referringDisk)
    (fun b _ => b.known.registry.names == ["p.B", "p.A"]) (by decide +kernel)
  obtain ⟨b', w₂, h', hnames'⟩ := exists_of_succeeds
    (compileBatch {} ⟨"", []⟩ ⟨"", ["out"]⟩ .empty pairFiles.reverse) (.onDisk referringDisk)
    (fun b _ => b.known.registry.names == ["p.B", "p.A"]) (by decide +kernel)
  have hsecond : isDefinition "fixed" "B" (some "p")
      (referringDisk.document? ⟨"", ["b.avsc"]⟩) = true := by
    decide +kernel
  have hclear : Unambiguous referringDisk .empty (pairFiles.map (·.path)) := by
    refine unambiguous_pair rfl (show "p.A" ≠ "p.B" by decide) ?_ ?_ ?_
    · rintro name ⟨v, hv, ho⟩
      rcases names_of_referring hv ho with h | h <;> cases h
      rfl
    · rintro name ⟨v, hv, ho⟩
      cases names_of_fixed hsecond hv ho
      rfl
    · rintro path hp name space ⟨v, hv, ho⟩
      rcases mem_pair.mp hp with rfl | rfl
      · rcases names_of_referring hv ho with h | h <;> cases h
        exact ⟨by decide, by decide⟩
      · cases names_of_fixed hsecond hv ho
  have hfiles : ∀ source ∈ pairFiles, referringDisk.isFile source.path = true := by decide
  obtain ⟨-, -, hdocuments, hwritten, hcontent⟩ := compileBatch_perm (w := .onDisk referringDisk) {}
    ⟨"", []⟩ ⟨"", ["out"]⟩ .empty Snapshot.solid_empty (reverse_perm pairFiles).symm
    (by decide) (by decide) hfiles hclear (.inl rfl) h h'
  exact ⟨b, b', w₁, w₂, h, h', beq_iff_eq.mp hnames, beq_iff_eq.mp hnames', hdocuments, hwritten,
    fun path hp => (hcontent path hp).1⟩

/-! ### Modules that share a place -/

/-- Two types whose modules share a place. -/
def sharedDisk : Disk :=
  pairDisk "\x7b\"type\":\"fixed\",\"name\":\"x.y\",\"size\":1\x7d"
    "\x7b\"type\":\"fixed\",\"name\":\"x/y\",\"size\":2\x7d"

/-- The path of both modules. -/
def sharedModule : Path := ⟨"", ["out", "x", "y.py"]⟩

/-- The snapshot without types that does not check names. -/
def uncheckedSnapshot : Snapshot := ⟨.empty, ⟨[], false, true⟩⟩

theorem toList_linesText (line : String) (lines : List String) :
    ∃ rest, (linesText (line :: lines)).toList = line.toList ++ rest := by
  rw [linesText, String.toList_append, String.toList_intercalate, map_cons]
  cases lines with
  | nil => exact ⟨"\n".toList, by simp⟩
  | cons next lines =>
    refine ⟨"\n".toList ++ "\n".toList.intercalate ((next :: lines).map String.toList) ++
      "\n".toList, ?_⟩
    simp [List.intercalate]

/-- Whether reading the file brings one fixed type of these names, with its module in the shared
place. -/
def bringsFixed (d : Disk) (known : Snapshot) (path : Path) (name fullName : String) : Bool :=
  succeeds (Idl.readSchemaFile d path) known.scope fun type t =>
    (checkLayout {} t.catalog ⟨"", []⟩ path type).isNone &&
    match t.registry.newTypes known.registry.names with
    | [id] =>
      (t.catalog.definition id).name == name && t.catalog.fullName id == fullName &&
        (t.catalog.definition id).doc == none &&
        (match (t.catalog.definition id).body with
          | .fixed _ => true
          | _ => false) &&
        match typeModule t.catalog {} id with
        | .ok file => (⟨"", ["out"]⟩ : Path).join file.path == sharedModule
        | .error _ => false
    | _ => false

theorem of_bringsFixed {fullName : String} (h : bringsFixed d known path name fullName = true) :
    ∃ type t file rest,
      Yields (Idl.readSchemaFile d path) known.scope type t ∧
      checkLayout {} t.catalog ⟨"", []⟩ path type = none ∧
      typeModules t.catalog {} (t.registry.newTypes known.registry.names) = .ok [file] ∧
      (⟨"", ["out"]⟩ : Path).join file.path = sharedModule ∧
      file.content = linesText (headerLines (name ++ " fixed.") fullName none ++ rest) := by
  obtain ⟨type, t, hread, h⟩ := exists_of_succeeds _ _ _ h
  rw [Bool.and_eq_true, Option.isNone_iff_eq_none] at h
  obtain ⟨hlayout, h⟩ := h
  split at h
  · rename_i id hid
    simp only [Bool.and_eq_true, beq_iff_eq] at h
    obtain ⟨⟨⟨⟨hname, hfull⟩, hdoc⟩, hbody⟩, hmodule⟩ := h
    split at hbody
    · rename_i size hsize
      split at hmodule
      · rename_i file hfile
        obtain ⟨rest, hcontent⟩ := content_of_fixed hsize hfile
        rw [hname, hfull, hdoc] at hcontent
        refine ⟨type, t, file, rest, hread, hlayout, ?_, beq_iff_eq.mp hmodule, hcontent⟩
        rw [hid]
        exact typeModules_eq_ok.mpr (.cons hfile .nil)
      · cases hmodule
    · cases hbody
  · cases h

/-- After a first file has brought a module to the shared place, a second one that belongs there
takes it over. -/
theorem exists_shared_run (first second : SourceInput) (name fullName line : String)
    (hfirst : succeeds (attempt {} ⟨"", []⟩ ⟨"", ["out"]⟩ ⟨uncheckedSnapshot, [], [], []⟩ first)
      (.onDisk sharedDisk) (fun (again, b) w => !again && b.failures.isEmpty &&
        bringsFixed w.disk b.known second.path name fullName &&
        match w.disk.readContent sharedModule with
        | .ok (.text _) => true
        | _ => false) = true)
    (hline : (headerLines (name ++ " fixed.") fullName none).head? = some line) :
    ∃ b w' rest, Yields (compileBatch {} ⟨"", []⟩ ⟨"", ["out"]⟩ uncheckedSnapshot [first, second])
      (.onDisk sharedDisk) b w' ∧ sharedModule ∈ b.written ∧
      w'.disk.readText sharedModule =
        .ok (String.ofList (Text.unifyNewlines (line.toList ++ rest))) := by
  obtain ⟨⟨again, b₁⟩, w₁, htry, htest⟩ := exists_of_succeeds _ _ _ hfirst
  simp only [Bool.and_eq_true, Bool.not_eq_true', List.isEmpty_iff] at htest
  obtain ⟨⟨⟨rfl, hfailures⟩, hbrings⟩, htext⟩ := htest
  obtain ⟨type, t, file, rest, hread, hlayout, hmodules, hpath, hcontent⟩ := of_bringsFixed hbrings
  split at htext
  · rename_i old hold
    have hlast : ((⟨"", ["out"]⟩ : Path).join file.path).parts.getLast? = some "y.py" := by
      rw [hpath]
      rfl
    obtain ⟨b₂, w₂, htry', hfailures', hwritten, hplaced⟩ :=
      exists_yields_attempt hread hlayout hmodules fun w hw => by
        have hread : w.disk.readContent ((⟨"", ["out"]⟩ : Path).join file.path) =
            .ok (.text old) := by rw [hpath, hw, hold]
        obtain ⟨_, hd⟩ := Disk.exists_replaceFile hlast (by decide) hread file.content
        obtain ⟨w', hw'⟩ := exists_writeModule hlast (by decide) hd fun c hc => by
          rw [hread] at hc
          cases hc
          rfl
        exact ⟨_, w', hw'.bind (.bind .pure .pure)⟩
    obtain ⟨d₁, c, -, hr, hc⟩ := hplaced.content (pairwise_singleton _ _) mem_cons_self
    have hnone : b₂.failures = [] := by
      rw [hfailures', Batch.clear, hfailures]
      rfl
    have hround : Yields (round {} ⟨"", []⟩ ⟨"", ["out"]⟩ ⟨uncheckedSnapshot, [], [], []⟩
        [first, second]) (.onDisk sharedDisk) ([], b₂) w₂ :=
      htry.bind (.bind (htry'.bind (.bind .pure .pure)) .pure)
    have hrounds : Yields (rounds {} ⟨"", []⟩ ⟨"", ["out"]⟩ 2 [first, second]
        ⟨uncheckedSnapshot, [], [], []⟩) (.onDisk sharedDisk) b₂ w₂ :=
      hround.bind .pure
    have hreport : Yields (reportFailures b₂.failures) w₂ () w₂ := by
      rw [hnone]
      rfl
    obtain ⟨tail, htail⟩ : ∃ tail, headerLines (name ++ " fixed.") fullName none = line :: tail :=
      head?_eq_some_iff.mp hline
    obtain ⟨after, hafter⟩ := toList_linesText line (tail ++ rest)
    refine ⟨_, w₂, after, hrounds.bind (hreport.bind .pure),
      ?_, ?_⟩
    · show sharedModule ∈ b₂.written
      rw [hwritten, ← hpath]
      simp
    · rw [← hafter, ← cons_append, ← htail, ← hcontent, ← hpath]
      exact hc.readText_eq hr
  · cases htext

/-- **Without checks of names two modules may share a place**, and the one that is written last
stays. -/
theorem compileBatch_shared_place :
    Unambiguous sharedDisk uncheckedSnapshot.registry (pairFiles.map (·.path)) ∧
    ∃ b b' w₁ w₂,
      Yields (compileBatch {} ⟨"", []⟩ ⟨"", ["out"]⟩ uncheckedSnapshot pairFiles)
        (.onDisk sharedDisk) b w₁ ∧
      Yields (compileBatch {} ⟨"", []⟩ ⟨"", ["out"]⟩ uncheckedSnapshot pairFiles.reverse)
        (.onDisk sharedDisk) b' w₂ ∧
      ∃ path, path ∈ b.written ∧ path ∈ b'.written ∧
        w₁.disk.readText path ≠ w₂.disk.readText path := by
  have hfirst : isDefinition "fixed" "y" (some "x")
      (sharedDisk.document? ⟨"", ["a.avsc"]⟩) = true := by
    decide +kernel
  have hsecond : isDefinition "fixed" "x/y" none
      (sharedDisk.document? ⟨"", ["b.avsc"]⟩) = true := by
    decide +kernel
  refine ⟨unambiguous_pair rfl (show "x.y" ≠ "x/y" by decide) ?_ ?_ ?_, ?_⟩
  · rintro name ⟨v, hv, ho⟩
    cases names_of_fixed hfirst hv ho
    rfl
  · rintro name ⟨v, hv, ho⟩
    cases names_of_fixed hsecond hv ho
    rfl
  · rintro path hp name space ⟨v, hv, ho⟩
    rcases mem_pair.mp hp with rfl | rfl
    · cases names_of_fixed hfirst hv ho
    · cases names_of_fixed hsecond hv ho
  · obtain ⟨b, w₁, rest, h, hwritten, htext⟩ := exists_shared_run ⟨⟨"", ["a.avsc"]⟩, .schema⟩
      ⟨⟨"", ["b.avsc"]⟩, .schema⟩ "x/y" "x/y" "\"\"\"x/y fixed."
      (by decide +kernel) (by decide +kernel)
    obtain ⟨b', w₂, rest', h', hwritten', htext'⟩ := exists_shared_run ⟨⟨"", ["b.avsc"]⟩, .schema⟩
      ⟨⟨"", ["a.avsc"]⟩, .schema⟩ "y" "x.y" "\"\"\"y fixed." (by decide +kernel) (by decide +kernel)
    refine ⟨b, b', w₁, w₂, h, h', sharedModule, hwritten, hwritten', fun heq => ?_⟩
    have hlists := String.ofList_injective (Except.ok.inj (htext.symm.trans (heq.trans htext')))
    have hquotes : "\"\"\"x/y fixed.".toList =
        '\x22' :: '\x22' :: '\x22' :: 'x' :: "/y fixed.".toList := rfl
    have hquotes' : "\"\"\"y fixed.".toList =
        '\x22' :: '\x22' :: '\x22' :: 'y' :: " fixed.".toList := rfl
    rw [hquotes, hquotes'] at hlists
    simp only [cons_append, Text.unifyNewlines_cons_of_ne (show '\x22' ≠ '\r' by decide),
      Text.unifyNewlines_cons_of_ne (show 'x' ≠ '\r' by decide),
      Text.unifyNewlines_cons_of_ne (show 'y' ≠ '\r' by decide), List.cons.injEq,
      true_and] at hlists
    exact absurd hlists.1 (by decide)

end Avroc
