import Avroc.Proofs.File.Staging
import Avroc.Proofs.Module.Places

/-!
# Modules that are written

Modules are written one after the other, each to where its path leads.

* `ends_writeModule`, `yields_writeModules` : **the steps that write bring this about.**
-/

namespace Avroc

open List

variable {d d₁ : Disk} {path target : Path} {file : SourceFile} {text : String} {w w' : World}
  {c : Content} {files : List SourceFile} {weather : Weather}

/-! ### One module -/

theorem Text.unifyNewlines_cons_of_ne {c : Char} (h : c ≠ '\r') (cs : List Char) :
    unifyNewlines (c :: cs) = c :: unifyNewlines cs := by
  rw [unifyNewlines, if_neg h]
  exact fun _ hc => absurd hc h

theorem Text.unifyNewlines_of_notMem {cs : List Char} (h : '\r' ∉ cs) : unifyNewlines cs = cs := by
  fun_induction unifyNewlines cs with
  | case1 => rfl
  | case2 rest ih => exact absurd mem_cons_self h
  | case3 c rest _ ih =>
    rw [mem_cons, not_or] at h
    rw [if_neg (Ne.symm h.1), ih h.2]

theorem Text.cr_notMem_unifyNewlines (cs : List Char) : '\r' ∉ unifyNewlines cs := by
  fun_induction unifyNewlines cs with
  | case1 => exact not_mem_nil
  | case2 rest ih =>
    rw [mem_cons, not_or]
    exact ⟨by decide, ih⟩
  | case3 c rest _ ih =>
    rw [mem_cons, not_or]
    refine ⟨?_, ih⟩
    split
    · decide
    · rename_i hc
      exact Ne.symm hc

/-- The content reads as the text, with one spelling of the end of a line. -/
def Content.Shows (c : Content) (text : String) : Prop :=
  ∃ s, c.toText = .ok s ∧ String.ofList (Text.unifyNewlines s.toList) = text

theorem Disk.readText_eq_ok : d.readText path = .ok text ↔
    ∃ c, d.readContent path = .ok c ∧ c.Shows text := by
  rw [readText, readExact]
  cases d.readContent path with
  | error fault => simp [Except.map]
  | ok c => cases hc : c.toText <;> simp [Except.map, Content.Shows, hc]

/-- A text that some content reads as is read as it stands. -/
theorem Content.Shows.self (h : c.Shows text) : (Content.text text).Shows text := by
  obtain ⟨s, -, rfl⟩ := h
  refine ⟨_, rfl, ?_⟩
  rw [String.toList_ofList, Text.unifyNewlines_of_notMem (Text.cr_notMem_unifyNewlines _)]

/-- The content that a module gets on a disk.  A file that already shows the text of the module is
left alone. -/
def Disk.GetsContent (d : Disk) (path : Path) (text : String) (c : Content) : Prop :=
  d.readContent path = .ok c ∧ c.Shows text ∨
    c = .text text ∧ ∀ old, d.readContent path = .ok old → ¬ old.Shows text

namespace Disk.GetsContent

variable {d₂ : Disk} {path : Path} {text : String} {c₁ c₂ : Content}

theorem unique (h : d.GetsContent path text c) (h' : d.GetsContent path text c₁) : c = c₁ := by
  rcases h with ⟨hr, hs⟩ | ⟨rfl, hn⟩ <;> rcases h' with ⟨hr', hs'⟩ | ⟨rfl, hn'⟩
  · exact Except.ok.inj (hr.symm.trans hr')
  · exact absurd hs (hn' c hr)
  · exact absurd hs' (hn c₁ hr')
  · rfl

theorem congr (hd : ∀ c, d₁.readContent path = .ok c ↔ d.readContent path = .ok c)
    (h : d₁.GetsContent path text c) : d.GetsContent path text c := by
  simp only [GetsContent, hd] at h
  exact h

/-- Whatever the disk, the text that is read is that of the module. -/
theorem readText_eq {e : Disk} (h : d.GetsContent path text c) (hr : e.readContent path = .ok c) :
    e.readText path = .ok (String.ofList (Text.unifyNewlines text.toList)) := by
  rcases h with ⟨-, hs⟩ | ⟨rfl, -⟩
  · obtain ⟨_, heq, hself⟩ := hs.self
    cases heq
    rw [hself]
    exact readText_eq_ok.mpr ⟨c, hr, hs⟩
  · exact readText_eq_ok.mpr ⟨_, hr, text, rfl, rfl⟩

end Disk.GetsContent

/-- The module stands on the second disk, at a place that its path leads to, and the first disk is
kept but for that place. -/
structure Placed (path : Path) (text : String) (place : List String) (d d' : Disk) : Prop where
  locate : d'.locate path = .ok place
  kept : d.KeptIn (· = place) d'
  changed : path.Plain → d.ChangedAt (· = place) d'
  content : ∃ c time, d'.root.kind? place = some (.file c time) ∧ d.GetsContent path text c

/-- The place of a module below a directory. -/
def Disk.placeOf (d : Disk) (target : Path) (file : SourceFile) : List String :=
  (d.resolve (target.join file.path)).parts

theorem Disk.KeptIn.placeOf {touched : List String → Prop} (h : d.KeptIn touched d₁)
    (file : SourceFile) : d₁.placeOf target file = d.placeOf target file := by
  rw [Disk.placeOf, Disk.placeOf, h.resolve]

theorem Placed.place_eq {place : List String} (h : Placed (target.join file.path) text place d d₁) :
    place = d.placeOf target file := by
  rw [← h.kept.placeOf]
  exact Disk.eq_resolve_of_locate h.locate

theorem needsWriting_eq_false (h : needsWriting d path text = .ok false) :
    ∃ c, d.readContent path = .ok c ∧ c.Shows text := by
  rw [needsWriting] at h
  split at h
  · split at h
    · rename_i s hs
      have hs' : s = text := by simpa using h
      exact Disk.readText_eq_ok.mp (hs' ▸ hs)
    · cases h
    · cases h
  · cases h

theorem needsWriting_eq_true (h : needsWriting d path text = .ok true)
    (hc : d.readContent path = .ok c) : ¬ c.Shows text := by
  intro hs
  have ht : d.readText path = .ok text := Disk.readText_eq_ok.mpr ⟨c, hc, hs⟩
  rw [needsWriting, if_pos (Disk.contains_of_readContent hc), ht] at h
  simp at h

/-- **A module that is written stands where its path leads**, and nothing else changes.  One that is
not written leaves its place as it is. -/
theorem ends_writeModule (target : Path) (file : SourceFile) (weather : Weather) (w : World) :
    Ends (fun path w' => path = target.join file.path ∧
        w' = { w with disk := w'.disk, log := w'.log } ∧
        (∃ needed, needsWriting w.disk path file.content = .ok needed) ∧
        ∃ place, Placed path file.content place w.disk w'.disk)
      (fun e w' => needsWriting w.disk (target.join file.path) file.content = .error e ∧ w' = w ∨
        (∃ fault, e = .file (.unwritableModule fault) (some (target.join file.path))) ∧
          w' = { w with disk := w'.disk } ∧
          Disk.Abandoned weather (target.join file.path) w.disk w'.disk)
      (outcome (writeModule target file weather) w) := by
  rw [writeModule, outcome_currentDisk_bind]
  cases hn : needsWriting w.disk (target.join file.path) file.content with
  | error e => exact ends_throw (.inl ⟨rfl, rfl⟩)
  | ok needed =>
    refine Yields.ends_bind (show Yields _ w needed w from rfl) ?_
    cases needed with
    | false =>
      obtain ⟨c, hc, hs⟩ := needsWriting_eq_false hn
      obtain ⟨place, time, hl, hk⟩ := Disk.readContent_eq_ok.mp hc
      exact ends_pure ⟨rfl, rfl, ⟨_, hn⟩, place, hl, .refl _ _, fun _ => .refl _ _, c, time, hk,
        .inl ⟨hc, hs⟩⟩
    | true =>
      rw [if_pos rfl, tellingFaults]
      refine Ends.bind (Ends.tryCatch (ends_replaceFile weather _ _ w) ?_) ?_
      · rintro _ w' ⟨⟨fault, rfl⟩, hw', habandoned⟩
        exact ends_throw (.inr ⟨⟨fault, rfl⟩, hw', habandoned⟩)
      rintro _ w' ⟨⟨name, hlast, hname⟩, hr, hw'⟩
      obtain ⟨parent, hl, hkept, time, hfile⟩ := Disk.replaceFile_spec hlast hname hr
      refine ends_pure ⟨rfl, ?_, ⟨_, hn⟩, parent ++ [name], hl, hkept, fun hp => ?_, _, time, hfile,
        .inr ⟨rfl, fun old ho => needsWriting_eq_true hn ho⟩⟩
      · rw [hw']
      · rw [Disk.eq_resolve_of_locate hl, hkept.resolve]
        exact Disk.changedAt_replaceFile hp hlast hr

theorem yields_writeModule (h : Yields (writeModule target file weather) w path w') :
    path = target.join file.path ∧ w' = { w with disk := w'.disk, log := w'.log } ∧
      ∃ place, Placed path file.content place w.disk w'.disk := by
  obtain ⟨hpath, hw', -, hplaced⟩ := (ends_writeModule target file weather w).of_ok h
  exact ⟨hpath, hw', hplaced⟩

/-! ### Several modules -/

/-- The place has the extension of modules. -/
def ModulePlace (place : List String) : Prop :=
  ∃ parent stem, place = parent ++ [String.ofList (stem ++ ".py".toList)]

/-- The file has the extension of modules. -/
def SourceFile.IsModule (file : SourceFile) : Prop :=
  ∃ stem, file.path.parts.getLast? = some (String.ofList (stem ++ ".py".toList))

theorem SourceFile.Named.isModule (h : file.Named) : file.IsModule := by
  obtain ⟨fullName, he⟩ := h
  obtain ⟨stem, hlast⟩ := modulePath_last fullName
  exact ⟨stem, he ▸ hlast⟩

/-- The modules have been placed one after the other. -/
inductive PlacedAll (target : Path) : List SourceFile → Disk → Disk → Prop
  | nil {d : Disk} : PlacedAll target [] d d
  | cons {file : SourceFile} {files : List SourceFile} {place : List String} {d d₁ d' : Disk} :
      Placed (target.join file.path) file.content place d d₁ → ModulePlace place →
      PlacedAll target files d₁ d' → PlacedAll target (file :: files) d d'

namespace PlacedAll

variable {d' : Disk}

theorem append {files' : List SourceFile} (h : PlacedAll target files d d₁)
    (h' : PlacedAll target files' d₁ d') : PlacedAll target (files ++ files') d d' := by
  induction h with
  | nil => exact h'
  | cons hp hm _ ih => exact .cons hp hm (ih h')

/-- All but modules is kept. -/
theorem kept (h : PlacedAll target files d d') : d.KeptIn ModulePlace d' := by
  induction h with
  | nil => exact .refl _ _
  | cons hp hm _ ih => exact (hp.kept.mono fun _ he => he ▸ hm).trans ih

/-- All but what is at the places of the modules is kept. -/
theorem kept_places (h : PlacedAll target files d d') :
    d.KeptIn (fun place => ∃ file ∈ files, place = d.placeOf target file) d' := by
  induction h with
  | nil => exact .refl _ _
  | cons hp _ _ ih =>
    refine (hp.kept.mono ?_).trans (ih.mono ?_)
    · rintro _ rfl
      exact ⟨_, mem_cons_self, hp.place_eq⟩
    · rintro _ ⟨other, hm, rfl⟩
      exact ⟨other, mem_cons_of_mem _ hm, hp.kept.placeOf other⟩

/-- What becomes of a module whose place no other module has: it is placed on a disk on which all
but modules at other places is as before, and stays. -/
theorem content (h : PlacedAll target files d d')
    (hapart : files.Pairwise fun f g => d.placeOf target f ≠ d.placeOf target g)
    (hfile : file ∈ files) :
    ∃ d₁ c, d.KeptIn (· ≠ d.placeOf target file) d₁ ∧
      d'.readContent (target.join file.path) = .ok c ∧
      d₁.GetsContent (target.join file.path) file.content c := by
  induction h with
  | nil => cases hfile
  | @cons f fs place d d₁ d' hp _ hrest ih =>
    have hsame : ∀ g, d₁.placeOf target g = d.placeOf target g := hp.kept.placeOf
    rw [pairwise_cons] at hapart
    rcases mem_cons.mp hfile with rfl | hfile
    · obtain ⟨c, time, hk, hc⟩ := hp.content
      refine ⟨d, c, .refl _ _, ?_, hc⟩
      refine hrest.kept_places.readContent hp.locate ?_
        (Disk.readContent_eq_ok.mpr ⟨place, time, hp.locate, hk⟩)
      rintro ⟨other, hm, heq⟩
      exact hapart.1 other hm (by rw [← hp.place_eq, heq, hsame])
    · have hapart' : fs.Pairwise fun f g => d₁.placeOf target f ≠ d₁.placeOf target g :=
        hapart.2.imp fun hne => by rwa [hsame, hsame]
      obtain ⟨d₂, c, hkept, hrest⟩ := ih hapart' hfile
      rw [hsame] at hkept
      refine ⟨d₂, c, (hp.kept.mono ?_).trans hkept, hrest⟩
      rintro _ rfl
      rw [hp.place_eq]
      exact hapart.1 file hfile

end PlacedAll

theorem writeModules_cons (target : Path) (file : SourceFile) (files : List SourceFile) :
    writeModules target (file :: files) = do
      let path ← writeModule target file .calm
      let paths ← writeModules target files
      return path :: paths :=
  rfl

/-- **The modules that are written stand where their paths lead**, and nothing else changes. -/
theorem yields_writeModules {paths : List Path} (hfiles : ∀ file ∈ files, file.IsModule)
    (h : Yields (writeModules target files) w paths w') :
    paths = files.map (fun file => target.join file.path) ∧
      w' = { w with disk := w'.disk, log := w'.log } ∧ PlacedAll target files w.disk w'.disk := by
  induction files generalizing w paths with
  | nil =>
    obtain ⟨rfl, rfl⟩ := yields_pure.mp h
    exact ⟨rfl, rfl, .nil⟩
  | cons file files ih =>
    rw [writeModules_cons] at h
    simp only [yields_bind, yields_pure] at h
    obtain ⟨path, w₁, hfirst, others, w₂, hrest, rfl, rfl⟩ := h
    rw [forall_mem_cons] at hfiles
    obtain ⟨stem, hlast⟩ := hfiles.1
    have hproper := And.intro (Path.getLast?_join target hlast)
      (ofList_append_py_ne stem (s := "..") (by decide))
    obtain ⟨rfl, hw₁, _, hplaced⟩ := yields_writeModule hfirst
    obtain ⟨parent, -, -, rfl⟩ := Disk.locate_parent hproper.1 hproper.2 hplaced.locate
    obtain ⟨rfl, hw', hplacedAll⟩ := ih hfiles.2 hrest
    refine ⟨rfl, ?_, .cons hplaced ⟨parent, stem, rfl⟩ hplacedAll⟩
    rw [hw', hw₁]

end Avroc
