import Avroc.Proofs.Cache.Compile

/-!
# Modules that are left over

Only the last record tells which modules to remove, and yet no module is left over, however many
compilations there have been: every file that was ever written and is still there is in the last
record.

* `Cache.compile_current` : **the files that are left are those of the last record.**
-/

namespace Avroc

open List

variable {inputs paths : List Path} {place : List String} {directory : Path} {e' : CacheEntry}
  {result : Compilation} {v : World} {name : String} {d d' : Disk} {files : List String → Prop}

/-! ### Files at places -/

/-- There is a file at the place. -/
def Disk.HasFile (d : Disk) (place : List String) : Prop :=
  ∃ content time, d.root.kind? place = some (.file content time)

namespace Disk

variable {touched gone : List String → Prop}

theorem KeptIn.hasFile (h : d.KeptIn touched d') (hf : d.HasFile place) : d'.HasFile place := by
  obtain ⟨content, time, hk⟩ := hf
  exact h.file place content time hk

theorem KeptIn.hasFile_back (h : d.KeptIn touched d') (hp : ¬ touched place)
    (hf : d'.HasFile place) : d.HasFile place := by
  obtain ⟨content, time, hk⟩ := hf
  exact ⟨content, time, (h.same place content time hp).mp hk⟩

theorem Pruned.hasFile (h : d.Pruned gone d') (hp : ¬ gone place) (hf : d.HasFile place) :
    d'.HasFile place := by
  obtain ⟨content, time, hk⟩ := hf
  exact ⟨content, time, (h.same place hp).trans hk⟩

theorem Pruned.hasFile_back (h : d.Pruned gone d') (hf : d'.HasFile place) : d.HasFile place := by
  obtain ⟨content, time, hk⟩ := hf
  rcases h.less place with he | hn
  · exact ⟨content, time, he ▸ hk⟩
  · rw [hn] at hk
    cases hk

theorem HasFile.isSome (h : d.HasFile place) : (d.root.kind? place).isSome = true := by
  obtain ⟨content, time, hk⟩ := h
  rw [hk]
  rfl

end Disk

/-- The text of the absolute path to a place. -/
def placeText (place : List String) : String :=
  (⟨"/", place⟩ : Path).text

/-- The place has proper names. -/
def ProperPlace (place : List String) : Prop :=
  ∀ name ∈ place, ProperName name

namespace ProperPlace

section
variable (h : ProperPlace place)
include h

theorem plain : (Path.mk "/" place).Plain :=
  ⟨.inr (.inl rfl), h⟩

theorem resolve (d : Disk) : (d.resolve ⟨"/", place⟩).parts = place := by
  rw [Disk.resolve_of_plain h.plain]
  rfl

theorem ofString_placeText :
    Path.ofString (placeText place) = ⟨"/", place⟩ :=
  h.plain.ofString_text

theorem placeOfText (d : Disk) :
    d.placeOfText (placeText place) = place := by
  rw [Disk.placeOfText, h.ofString_placeText, h.resolve]

/-- A file is found under the text of its place. -/
theorem contains (hf : d.HasFile place) :
    d.contains (.ofString (placeText place)) = true := by
  rw [h.ofString_placeText]
  have hl : d.locate ⟨"/", place⟩ = .ok (d.resolve ⟨"/", place⟩).parts :=
    Disk.locate_of_kind? h.plain.dots_notMem (by rw [h.resolve]; exact hf.isSome)
  rw [h.resolve] at hl
  exact Disk.contains_eq_true.mpr ⟨place, hl, hf.isSome⟩

end

end ProperPlace

/-! ### What actions do -/

/-- From the first disk to the second an action has written the files at the places `files`.  It
reports them as written, and they are among its outputs. -/
structure Reports (files : List String → Prop) (result : Compilation) (d d' : Disk) : Prop where
  kept : d.KeptIn files d'
  made : ∀ place, files place → d'.HasFile place
  spelled : ∀ p ∈ result.written, p.Spelled
  written : ∀ place, files place ↔ ∃ p ∈ result.written, (d'.resolve p).parts = place
  found : ∀ place, files place → ∃ p ∈ result.outputs, p.Spelled ∧ d'.locate p = .ok place

namespace Reports

theorem properPlace (h : Reports files result d d')
    (hworking : ∀ name ∈ d'.working, ProperName name) (hf : files place) : ProperPlace place := by
  obtain ⟨p, hp, rfl⟩ := (h.written place).mp hf
  exact (Disk.plain_resolve hworking (h.spelled p hp)).parts

/-- The texts that are recorded as written are those of the places of the files. -/
theorem mem_writtenKeys (h : Reports files result d d') {text : String} :
    text ∈ writtenKeys d' result.written ↔ ∃ place, files place ∧ text = placeText place := by
  rw [Avroc.mem_writtenKeys]
  constructor
  · rintro ⟨p, hp, rfl⟩
    exact ⟨_, (h.written _).mpr ⟨p, hp, rfl⟩, rfl⟩
  · rintro ⟨place, hf, rfl⟩
    obtain ⟨p, hp, rfl⟩ := (h.written place).mp hf
    exact ⟨p, hp, rfl⟩

end Reports

namespace Cache

variable {cache : Cache} {source : Path} {ever current : List String → Prop} {e : CacheEntry}
  {w w' : World}

/-! ### Histories -/

/-- A compilation that returns, and the places that its action has written.  They are not that of
the record. -/
inductive Call (cache : Cache) (source : Path) (w : World) : (List String → Prop) → World → Prop
  | hit {inputs : List Path} {action : Build Compilation} {paths : List Path} {w' : World}
      (returns : Yields (cache.compile source inputs action) w paths w')
      (ignored : ¬ cache.Invokes source inputs w) : Call cache source w (fun _ => False) w'
  | miss {inputs : List Path} {action : Build Compilation} {paths : List Path} {w' v : World}
      {files : List String → Prop}
      (returns : Yields (cache.compile source inputs action) w paths w')
      (invoked : cache.InvokesIn source inputs w v)
      (reports : ∀ result v', Yields action v result v' → Reports files result v.disk v'.disk)
      (apart : ¬ files (cache.entryPlace w.disk source))
      (dated : ∀ p ∈ inputs, w.disk.Dated p) : Call cache source w files w'

/-- What may happen between compilations: the record stays as it is, and at the places `ever`
nothing new is put. -/
structure Meddled (cache : Cache) (source : Path) (ever : List String → Prop) (d d' : Disk) :
    Prop where
  working : d'.working = d.working
  record : d'.node (cache.entryPath d source) = d.node (cache.entryPath d source)
  file : ∀ place, ever place → d'.HasFile place → d.HasFile place
  directory : ∀ place, ever place → d'.root.kind? place = some .directory →
    d.root.kind? place = some .directory

/-- A sequence of compilations of a source directory that all return, with either strategy and
starting with no record, and the places that their actions have written. -/
inductive History (directory source : Path) : (List String → Prop) → World → Prop
  | start {w : World} {strategy : CacheStrategy}
      (working : ∀ name ∈ w.disk.working, ProperName name)
      (spelled : source.Spelled) (absent : (Cache.mk directory strategy).Absent w.disk source) :
      History directory source (fun _ => False) w
  | call {w w' : World} {ever files : List String → Prop} {strategy : CacheStrategy}
      (before : History directory source ever w)
      (call : Call ⟨directory, strategy⟩ source w files w') :
      History directory source (fun place => ever place ∨ files place) w'
  | meddle {w : World} {d' : Disk} {ever : List String → Prop} {strategy : CacheStrategy}
      (before : History directory source ever w)
      (meddled : Meddled ⟨directory, strategy⟩ source ever w.disk d') :
      History directory source ever { w with disk := d' }

/-! ### What the record says -/

/-- The record has the files `current` as written.  Of the files that were ever written no others
are left, and each of these is among the modules found. -/
structure Kept (cache : Cache) (source : Path) (ever current : List String → Prop) (d : Disk)
    (e : CacheEntry) : Prop where
  storable : e.Storable
  holds : cache.Holds d source e
  proper : ∀ place, current place → ever place ∧ ProperPlace place
  written : ∃ texts : List String, e.written = texts.map .string ∧
    ∀ text, text ∈ texts ↔ ∃ place, current place ∧ text = placeText place
  outputs : ∃ texts : List String, e.outputs = texts.map .string ∧
    ∀ place, current place → ∃ text ∈ texts, d.placeOfText text = place
  covers : ∀ place, ever place → d.HasFile place → current place
  left : ∀ place, current place → (d.root.kind? place).isSome = true → d.HasFile place

/-- What holds along a history. -/
structure Tidy (cache : Cache) (source : Path) (ever : List String → Prop) (d : Disk) : Prop where
  working : ∀ name ∈ d.working, ProperName name
  spelled : source.Spelled
  apart : ¬ ever (cache.entryPlace d source)
  record : (cache.Absent d source ∧ ∀ place, ¬ ever place) ∨
    ∃ current e, cache.Kept source ever current d e

/-- The strategy has no part in where records are. -/
theorem entryPath_withStrategy (directory : Path) (s s' : CacheStrategy) (d : Disk)
    (source : Path) : (Cache.mk directory s).entryPath d source =
      (Cache.mk directory s').entryPath d source := by
  unfold entryPath
  rfl

theorem Tidy.withStrategy {s s' : CacheStrategy} (h : (Cache.mk directory s).Tidy source ever d) :
    (Cache.mk directory s').Tidy source ever d := by
  have hpath := entryPath_withStrategy directory s' s d source
  refine ⟨h.working, h.spelled, ?_, h.record.imp ?_ ?_⟩
  · rw [entryPlace, hpath]
    exact h.apart
  · rw [Absent, Absent, hpath]
    exact id
  · rintro ⟨current, e, hkept⟩
    refine ⟨current, e, { hkept with holds := ?_ }⟩
    rw [Holds, hpath]
    exact hkept.holds

theorem Tidy.meddled (h : cache.Tidy source ever d) (hm : cache.Meddled source ever d d') :
    cache.Tidy source ever d' := by
  have hpath : cache.entryPath d' source = cache.entryPath d source :=
    entryPath_of_working hm.working
  have hapart : ¬ ever (cache.entryPlace d' source) := by
    rw [entryPlace_of_working hm.working]
    exact h.apart
  refine ⟨hm.working ▸ h.working, h.spelled, hapart, ?_⟩
  rcases h.record with ⟨habsent, hnone⟩ | ⟨current, e, hkept⟩
  · refine .inl ⟨?_, hnone⟩
    rw [Absent, hpath, Disk.contains, hm.record]
    exact habsent
  · refine .inr ⟨current, e, hkept.storable, ?_, hkept.proper, hkept.written, ?_,
      fun place hp hf => hkept.covers place hp (hm.file place hp hf), fun place hp hs => ?_⟩
    · rw [Holds, hpath, Disk.readContent, hm.record]
      exact hkept.holds
    · obtain ⟨texts, heq, hfound⟩ := hkept.outputs
      refine ⟨texts, heq, fun place hp => ?_⟩
      obtain ⟨text, ht, hplace⟩ := hfound place hp
      refine ⟨text, ht, ?_⟩
      rw [Disk.placeOfText, Disk.resolve, hm.working]
      exact hplace
    · have hever := (hkept.proper place hp).1
      obtain ⟨kind, hk⟩ := Option.isSome_iff_exists.mp hs
      cases kind with
      | file content time => exact ⟨content, time, hk⟩
      | directory =>
        have hdir := hm.directory place hever hk
        obtain ⟨content, time, hfile⟩ := hkept.left place hp (by rw [hdir]; rfl)
        rw [hdir] at hfile
        cases hfile

/-! ### Compilations -/

/-- The modules of a record that holds are there. -/
theorem contains_of_staleness {texts : List String} (houtputs : e.outputs = texts.map .string)
    (h : cache.staleness d (some e) inputs = .ok none) :
    ∀ text ∈ texts, d.contains (.ofString text) = true := by
  have hmissing : missingOutput? d (texts.map .string) = .ok none := by
    rw [staleness, houtputs] at h
    dsimp only at h
    split at h
    · cases h
    · split at h
      · cases h
      · split at h
        · cases h
        · exact h
  clear h houtputs
  induction texts with
  | nil => exact forall_mem_nil _
  | cons text texts ih =>
    simp only [map_cons, missingOutput?, pathOf, bind, Except.bind] at hmissing
    split at hmissing
    · rename_i hc
      exact forall_mem_cons.mpr ⟨hc, ih hmissing⟩
    · cases hmissing

/-- At a hit every file of the record is there. -/
theorem Kept.hasFile_of_hit (h : cache.Kept source ever current d e) (hsame : e'.Same e)
    (hhit : cache.staleness d (some e') inputs = .ok none) (hp : current place) :
    d.HasFile place := by
  obtain ⟨texts, heq, hfound⟩ := h.outputs
  obtain ⟨text, ht, rfl⟩ := hfound place hp
  have hc := contains_of_staleness (hsame.outputs.trans heq) hhit text ht
  obtain ⟨place, hl, hs⟩ := Disk.contains_eq_true.mp hc
  rw [Disk.eq_resolve_of_locate hl] at hs
  exact h.left _ hp hs

/-- The files of the previous record, if there is one. -/
structure Replaces (previous : Option CacheEntry) (ever old : List String → Prop) (d : Disk) :
    Prop where
  proper : ∀ place, old place → ever place ∧ ProperPlace place
  covers : ∀ place, ever place → d.HasFile place → old place
  drops : ∀ written names, Drops previous written names → ∀ name, name ∈ names ↔
    (∃ place, old place ∧ name = placeText place) ∧ name ∉ written

theorem replaces_none (h : ∀ place, ¬ ever place) : Replaces none ever (fun _ => False) d where
  proper _ := False.elim
  covers place hp _ := h place hp
  drops := by
    rintro written _ rfl name
    simp

theorem Kept.replaces (h : cache.Kept source ever current d e) (hsame : e'.Same e) :
    Replaces (some e') ever current d where
  proper := h.proper
  covers := h.covers
  drops := by
    intro written names hdrops name
    obtain ⟨texts, heq, hmem⟩ := h.written
    rw [Drops, hsame.written, heq] at hdrops
    rw [abandoned_eq_ok hdrops, hmem]

/-- **What is left after a miss**: the files that were written now, and what was never written. -/
theorem Replaces.record {previous : Option CacheEntry} {old : List String → Prop}
    {stamps : List (Json × Json)} (h : Replaces previous ever old d)
    (hreports : Reports files result d v.disk) (hworking : ∀ name ∈ v.disk.working, ProperName name)
    (hspelled : source.Spelled)
    (hstorable : ∀ outputs written, (cache.recordOf v.disk source stamps outputs written).Storable)
    (hapart : ¬ ever (cache.entryPlace v.disk source))
    (hrecord : Yields (cache.record source previous stamps result) v paths w') :
    (∃ e, cache.Kept source (fun place => ever place ∨ files place) files w'.disk e) ∧
      w'.disk.working = v.disk.working ∧ (∀ place, files place → w'.disk.HasFile place) ∧
      ∀ place, ¬ (ever place ∨ files place) → d.HasFile place → w'.disk.HasFile place := by
  obtain ⟨names, d₁, place, hdrops, hpruned, hgone, hplace, hkept, hholds, -⟩ :=
    yields_record hworking hspelled hrecord
  have hnames := h.drops _ _ hdrops
  have hsafe : ∀ q, ¬ (old q ∧ ¬ files q) →
      ¬ ∃ name ∈ names, q = v.disk.placeOfText name := by
    rintro q hq ⟨name, hm, rfl⟩
    obtain ⟨⟨q, ho, rfl⟩, hnew⟩ := (hnames name).mp hm
    rw [(h.proper q ho).2.placeOfText] at hq
    exact hq ⟨ho, fun hf => hnew (hreports.mem_writtenKeys.mpr ⟨q, hf, rfl⟩)⟩
  have hthere₁ : ∀ q, files q → d₁.HasFile q := fun q hf =>
    hpruned.hasFile (hsafe q fun hn => hn.2 hf) (hreports.made q hf)
  have hthere : ∀ q, files q → w'.disk.HasFile q := fun q hf => hkept.hasFile (hthere₁ q hf)
  have hworking' : w'.disk.working = v.disk.working := hkept.working.trans hpruned.working
  have hentry : place = cache.entryPlace v.disk source := by
    rw [Disk.eq_resolve_of_locate hplace, Disk.resolve, hworking']
    rfl
  -- the root of the tree is no file, as the record lies below it
  have hroot : ¬ w'.disk.HasFile [] := by
    obtain ⟨name, hname, hlast⟩ := cache.getLast?_entryPath v.disk source
    obtain ⟨parent, -, hdir, -⟩ := Disk.locate_parent hlast hname hplace
    rintro ⟨content, time, hk⟩
    rw [Node.kind?_nil_of_directory hdir] at hk
    cases hk
  have hcovers : ∀ q, ever q ∨ files q → w'.disk.HasFile q → files q := by
    rintro q (hq | hq) hf
    · refine Classical.byContradiction fun hnew => ?_
      have hf₁ := hkept.hasFile_back (fun he => hapart (hentry ▸ he ▸ hq)) hf
      have ho := h.covers q hq (hreports.kept.hasFile_back hnew (hpruned.hasFile_back hf₁))
      have hproper := (h.proper q ho).2
      have hm : placeText q ∈ names := (hnames _).mpr ⟨⟨q, ho, rfl⟩, fun hw => ?_⟩
      · have hc := hgone _ hm (by rw [hproper.placeOfText]; rintro rfl; exact hroot hf)
        rw [hproper.contains hf₁] at hc
        cases hc
      · obtain ⟨q', hf', heq⟩ := hreports.mem_writtenKeys.mp hw
        have hq' := (hreports.properPlace hworking hf').placeOfText d
        rw [← heq, hproper.placeOfText] at hq'
        exact hnew (hq' ▸ hf')
    · exact hq
  refine ⟨⟨_, hstorable _ _, hholds, fun q hf => ⟨.inr hf, hreports.properPlace hworking hf⟩,
    ⟨_, rfl, fun text => hreports.mem_writtenKeys⟩, ⟨_, rfl, fun q hf => ?_⟩, hcovers,
    fun q hf _ => hthere q hf⟩, hworking', hthere, fun q hq hf => ?_⟩
  · obtain ⟨p, hp, hspell, hl⟩ := hreports.found q hf
    have hl₁ := hpruned.locate hl (hthere₁ q hf).isSome
    refine ⟨p.text, mem_keptOutputs.mpr ⟨p, hp, ?_, rfl⟩, ?_⟩
    · exact Disk.contains_eq_true.mpr ⟨q, hl₁, (hthere₁ q hf).isSome⟩
    · rw [Disk.placeOfText, hspell.ofString_text, ← Disk.eq_resolve_of_locate (hkept.locate hl₁)]
  · refine hkept.hasFile (hpruned.hasFile (hsafe q fun hn => hq (.inl (h.proper q hn.1).1)) ?_)
    exact hreports.kept.hasFile hf

/-- The record is about the files that are left, and each of them is there. -/
def Current (cache : Cache) (source : Path) (ever : List String → Prop) (d : Disk) : Prop :=
  ∃ current e, cache.Kept source ever current d e ∧ ∀ place, current place → d.HasFile place

/-- The record is loaded as it is held, and tells which files were written. -/
theorem Tidy.load (h : cache.Tidy source ever w.disk) : ∃ previous old,
    outcome (cache.load source) w = (.ok previous, w) ∧ Replaces previous ever old w.disk ∧
      ∀ e' ∈ previous, ∃ e, e'.Same e ∧ cache.Kept source ever old w.disk e := by
  rcases h.record with ⟨habsent, hnone⟩ | ⟨current, e, hkept⟩
  · exact ⟨none, _, outcome_load_of_absent habsent, replaces_none hnone, nofun⟩
  · obtain ⟨e', -, hsame, hload⟩ := outcome_load_of_holds hkept.storable hkept.holds
    refine ⟨some e', current, hload, hkept.replaces hsame, ?_⟩
    rintro _ ⟨⟩
    exact ⟨e, hsame, hkept⟩

/-- **A compilation tidies up.** -/
theorem Tidy.call (h : cache.Tidy source ever w.disk) (hcall : cache.Call source w files w') :
    cache.Tidy source (fun place => ever place ∨ files place) w'.disk ∧
      cache.Current source (fun place => ever place ∨ files place) w'.disk ∧
      ∀ place, ¬ (ever place ∨ files place) → w.disk.HasFile place → w'.disk.HasFile place := by
  obtain ⟨previous, old, hload, hreplaces, hkept⟩ := h.load
  cases hcall with
  | @hit inputs action paths _ hreturns hignored =>
    simp only [or_false]
    rcases yields_compile hload hreturns with ⟨hhit, hdisk, -⟩ | ⟨reason, _, _, _, -, -, hin, -, -⟩
    · rw [hdisk]
      cases previous with
      | none => cases hhit
      | some e' =>
        obtain ⟨e, hsame, hkept⟩ := hkept e' rfl
        exact ⟨h, ⟨old, e, hkept, fun place hp => hkept.hasFile_of_hit hsame hhit hp⟩,
          fun _ _ hf => hf⟩
    · exact absurd ⟨_, hin⟩ hignored
  | @miss inputs action paths _ v _ hreturns hinvoked hreports hapart hdated =>
    rcases yields_compile hload hreturns with ⟨-, -, hnot⟩ |
      ⟨reason, stamps, result, v', -, hstamps, hin, haction, hrecord⟩
    · exact absurd ⟨v, hinvoked⟩ hnot
    · obtain rfl := hinvoked.unique hin
      obtain ⟨hstamped, rfl⟩ := stampInputs_eq_ok.mp hstamps
      have hreport : Reports files result w.disk v'.disk := hreports result v' haction
      have hworking : v'.disk.working = w.disk.working := hreport.kept.working
      have hplace : cache.entryPlace v'.disk source = cache.entryPlace w.disk source :=
        entryPlace_of_working hworking
      obtain ⟨⟨e, hnew⟩, hworking', hthere, hother⟩ := hreplaces.record hreport
        (hworking ▸ h.working) h.spelled (storable_recordOf hdated hstamped v'.disk)
        (by rw [hplace]; exact h.apart) hrecord
      refine ⟨⟨?_, h.spelled, ?_, .inr ⟨files, e, hnew⟩⟩, ⟨files, e, hnew, hthere⟩, hother⟩
      · rw [hworking', hworking]
        exact h.working
      · rw [entryPlace_of_working (hworking'.trans hworking)]
        exact not_or.mpr ⟨h.apart, hapart⟩

theorem History.tidy (h : History directory source ever w) (strategy : CacheStrategy) :
    (Cache.mk directory strategy).Tidy source ever w.disk := by
  induction h with
  | start working spelled absent =>
    exact Tidy.withStrategy ⟨working, spelled, id, .inl ⟨absent, fun _ => id⟩⟩
  | call _ hcall ih => exact ((Tidy.withStrategy ih).call hcall).1.withStrategy
  | meddle _ hm ih => exact ((Tidy.withStrategy ih).meddled hm).withStrategy

/-- **The files that are left are those of the last record.**  After each compilation of a history,
the files ever written by its actions that exist are exactly those that the record has as written;
and no compilation removes a file that no action has written. -/
theorem compile_current {directory : Path} {strategy : CacheStrategy}
    (h : History directory source ever w)
    (hcall : Call ⟨directory, strategy⟩ source w files w') :
    (∃ e, outcome ((Cache.mk directory strategy).load source) w' = (.ok (some e), w') ∧
      ∀ place, ((ever place ∨ files place) ∧ w'.disk.HasFile place) ↔
        ∃ text, .string text ∈ e.written ∧ w'.disk.placeOfText text = place) ∧
    ∀ place, ¬ (ever place ∨ files place) → w.disk.HasFile place → w'.disk.HasFile place := by
  obtain ⟨-, ⟨current, e, hkept, hthere⟩, hother⟩ := (h.tidy strategy).call hcall
  refine ⟨?_, hother⟩
  obtain ⟨e', -, hsame, hload⟩ := outcome_load_of_holds hkept.storable hkept.holds
  refine ⟨e', hload, fun place => ?_⟩
  obtain ⟨texts, heq, hmem⟩ := hkept.written
  rw [hsame.written, heq]
  constructor
  · rintro ⟨hever, hfile⟩
    have hp := hkept.covers place hever hfile
    exact ⟨placeText place, mem_map_of_mem ((hmem _).mpr ⟨place, hp, rfl⟩),
      (hkept.proper place hp).2.placeOfText _⟩
  · rintro ⟨text, ht, rfl⟩
    obtain ⟨text', ht', heq'⟩ := mem_map.mp ht
    obtain rfl := Json.string.inj heq'
    obtain ⟨place, hp, rfl⟩ := (hmem text').mp ht'
    rw [(hkept.proper place hp).2.placeOfText]
    exact ⟨(hkept.proper place hp).1, hthere place hp⟩

/-! ### A module that is not written any more -/

/-- Writing one module is what it reports. -/
theorem reports_writesModule (hname : ProperName name) {v' : World}
    (h : Yields (writesModule name) v result v') :
    Reports (· = v.disk.working ++ [name]) result v.disk v'.disk := by
  have hdisk : result = ⟨[⟨"", [name]⟩], [⟨"", [name]⟩], []⟩ ∧
      v.disk.writeFile ⟨"", [name]⟩ (.text "a") = .ok v'.disk := by
    rw [Yields, writesModule, outcome_bind, outcome_changeDisk] at h
    cases hw : v.disk.writeFile ⟨"", [name]⟩ (.text "a") with
    | error fault => rw [hw] at h; cases h
    | ok disk => rw [hw] at h; cases h; exact ⟨rfl, rfl⟩
  obtain ⟨rfl, hw⟩ := hdisk
  have hspelled : (Path.mk "" [name]).Plain := ⟨.inl rfl, forall_mem_singleton.mpr hname⟩
  obtain ⟨parent, hparent, -, hl, hkept, hfile, -⟩ := Disk.writeFile_spec rfl hname.2.2.1 hw
  obtain rfl : parent = v.disk.working := (Except.ok.inj hparent).symm
  refine ⟨hkept, ?_, forall_mem_singleton.mpr hspelled.spelled, fun place => ?_, ?_⟩
  · rintro _ rfl
    exact ⟨_, _, hfile⟩
  · rw [Disk.eq_resolve_of_locate hl]
    simp [eq_comm]
  · rintro _ rfl
    exact ⟨_, mem_singleton_self _, hspelled.spelled, hl⟩

theorem call_writesModule (hname : ProperName name) (h : cache.Tidy source ever w.disk)
    (hcompile : Yields (cache.compile source inputs (writesModule name)) w paths w')
    (hchanged : w'.disk ≠ w.disk) (hdated : ∀ p ∈ inputs, w.disk.Dated p)
    (hapart : cache.entryPlace w.disk source ≠ w.disk.working ++ [name]) :
    cache.Call source w (· = w.disk.working ++ [name]) w' := by
  obtain ⟨previous, -, hload, -, -⟩ := h.load
  rcases yields_compile hload hcompile with ⟨-, hsame, -⟩ | ⟨reason, _, _, _, -, -, hin, -, -⟩
  · exact absurd hsame hchanged
  · refine .miss hcompile hin (fun result v' haction => ?_) hapart hdated
    have hreports := reports_writesModule hname haction
    exact hreports

theorem compile_current_pruned : ∃ w₁ w₂,
    History ⟨"", ["c"]⟩ ⟨"", []⟩ (fun place => False ∨ place = ["p", "a.py"]) w₁ ∧
      timedCache.Call ⟨"", []⟩ w₁ (· = ["p", "b.py"]) w₂ ∧
      w₁.disk.contains ⟨"", ["a.py"]⟩ = true ∧ w₂.disk.contains ⟨"", ["a.py"]⟩ = false ∧
      ∃ e, outcome (timedCache.load ⟨"", []⟩) w₂ = (.ok (some e), w₂) ∧
        ∀ place, (((False ∨ place = ["p", "a.py"]) ∨ place = ["p", "b.py"]) ∧
            w₂.disk.HasFile place) ↔
          ∃ text, .string text ∈ e.written ∧ w₂.disk.placeOfText text = place := by
  have hrun : succeeds (timedCache.compile ⟨"", []⟩ [] (writesModule "a.py")) (.onDisk freshDisk)
      (fun _ w₁ => w₁.disk.contains ⟨"", ["a.py"]⟩ && w₁.disk.working == ["p"] &&
        (w₁.disk.node ⟨"", ["a.avsc"]⟩).toOption.all (·.time == 5) &&
        succeeds (timedCache.compile ⟨"", []⟩ [⟨"", ["a.avsc"]⟩] (writesModule "b.py")) w₁
          fun _ w₂ => !w₂.disk.contains ⟨"", ["a.py"]⟩) = true := by
    decide +kernel
  obtain ⟨paths₁, w₁, hfirst, htest⟩ := exists_of_succeeds _ _ _ hrun
  simp only [Bool.and_eq_true, beq_iff_eq] at htest
  obtain ⟨⟨⟨hthere, hworking⟩, htime⟩, hrun⟩ := htest
  obtain ⟨paths₂, w₂, hsecond, htest⟩ := exists_of_succeeds _ _ _ hrun
  rw [Bool.not_eq_true'] at htest
  have hstart : History ⟨"", ["c"]⟩ ⟨"", []⟩ (fun _ => False) (.onDisk freshDisk) :=
    .start ready_fresh.working ready_fresh.spelled absent_fresh
  have hdepth : (timedCache.entryPlace freshDisk ⟨"", []⟩).length = 3 := by decide +kernel
  have hapart : ∀ {d : Disk} {name : String}, d.working = ["p"] →
      timedCache.entryPlace d ⟨"", []⟩ ≠ d.working ++ [name] := by
    intro d name hd heq
    rw [entryPlace_of_working (d := freshDisk) hd] at heq
    rw [heq, hd] at hdepth
    cases hdepth
  have hcall₁ : timedCache.Call ⟨"", []⟩ (.onDisk freshDisk) (· = ["p", "a.py"]) w₁ := by
    refine call_writesModule (by unfold ProperName; decide) (hstart.tidy .lastModified) hfirst ?_
      (forall_mem_nil _) (hapart rfl)
    intro hsame
    rw [hsame] at hthere
    cases hthere
  have hhistory := hstart.call hcall₁
  have hcall₂ : timedCache.Call ⟨"", []⟩ w₁ (· = w₁.disk.working ++ ["b.py"]) w₂ := by
    refine call_writesModule (by unfold ProperName; decide) (hhistory.tidy .lastModified) hsecond ?_
      (forall_mem_singleton.mpr ?_) (hapart hworking)
    · intro hsame
      rw [hsame, hthere] at htest
      cases htest
    · intro node hnode
      rw [hnode, Except.toOption, Option.all_some, beq_iff_eq] at htime
      rw [htime]
      exact natAbs_five_lt
  rw [hworking] at hcall₂
  exact ⟨w₁, w₂, hhistory, hcall₂, hthere, htest, (compile_current hhistory hcall₂).1⟩

end Cache

end Avroc
