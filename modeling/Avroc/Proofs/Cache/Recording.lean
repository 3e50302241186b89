import Avroc.Proofs.Cache.Staleness

/-!
# Recording a compilation

After a compilation the modules that are not written any more are removed, and its record is
stored.

* `yields_prune` : **what removing modules does.**
* `Cache.yields_record` : **what recording a compilation does.**
-/

namespace Avroc

open List

variable {d d' d₁ : Disk} {path : Path} {gone : List String → Prop}
  {place names written : List String} {w w' : World} {u : Unit} {stamps : List (Json × Json)}
  {result : Compilation}

/-! ### Disks that lose files -/

namespace Disk

/-- From the first disk to the second, files have gone at places in `gone`, and nothing else has
changed. -/
structure Pruned (gone : List String → Prop) (d d' : Disk) : Prop where
  working : d'.working = d.working
  directory : ∀ q, d.root.kind? q = some .directory → d'.root.kind? q = some .directory
  same : ∀ q, ¬ gone q → d'.root.kind? q = d.root.kind? q
  less : ∀ q, d'.root.kind? q = d.root.kind? q ∨ d'.root.kind? q = none

namespace Pruned

variable {gone' : List String → Prop} {d d' : Disk}

theorem refl (gone : List String → Prop) (d : Disk) : d.Pruned gone d :=
  ⟨rfl, fun _ h => h, fun _ _ => rfl, fun _ => .inl rfl⟩

theorem trans (h : d.Pruned gone d₁) (h' : d₁.Pruned gone d') : d.Pruned gone d' where
  working := h'.working.trans h.working
  directory q hq := h'.directory q (h.directory q hq)
  same q hq := (h'.same q hq).trans (h.same q hq)
  less q := by
    rcases h'.less q with he | hn
    · rw [he]
      exact h.less q
    · exact .inr hn

section
variable (h : d.Pruned gone d')
include h

theorem mono (hg : ∀ q, gone q → gone' q) : d.Pruned gone' d' :=
  { h with same := fun q hq => h.same q fun hn => hq (hg q hn) }

theorem resolve (path : Path) : d'.resolve path = d.resolve path := by
  rw [Disk.resolve, Disk.resolve, h.working]

/-- A path that leads somewhere led there before. -/
theorem locate_back (hl : d'.locate path = .ok place) :
    d.locate path = .ok place := by
  have hback : ∀ q kind, d'.root.kind? q = some kind → d.root.kind? q = some kind := by
    intro q kind hq
    rcases h.less q with he | hn
    · exact he ▸ hq
    · rw [hn] at hq
      cases hq
  refine locate_of_directories h.working.symm (fun q => hback q _) hl fun hs => ?_
  obtain ⟨kind, hk⟩ := Option.isSome_iff_exists.mp hs
  rw [hback _ _ hk]
  rfl

theorem contains_back (hc : d'.contains path = true) :
    d.contains path = true := by
  obtain ⟨place, hl, hs⟩ := contains_eq_true.mp hc
  refine contains_eq_true.mpr ⟨place, h.locate_back hl, ?_⟩
  rcases h.less place with he | hn
  · exact he ▸ hs
  · rw [hn] at hs
    cases hs

/-- A path leads where it led, if something is left there. -/
theorem locate (hl : d.locate path = .ok place) (hs : (d'.root.kind? place).isSome = true) :
    d'.locate path = .ok place :=
  locate_of_directories h.working h.directory hl fun _ => hs

end

end Pruned

/-- A file that is removed is gone. -/
theorem pruned_removeFile (h : d.removeFile path = .ok d') :
    d.Pruned (· = (d.resolve path).parts) d' ∧
      ((d.resolve path).parts ≠ [] → d'.contains path = false) := by
  by_cases hne : (d.resolve path).parts = []
  · -- the root of the tree cannot be removed
    rw [removeFile] at h
    split at h
    · cases h
    · rename_i place hl
      rw [eq_resolve_of_locate hl, hne] at h
      split at h
      · cases h
      · cases h
        exact ⟨.refl _ _, fun hn => absurd hne hn⟩
  · obtain ⟨hchanged, hself, hother⟩ := changedAt_removeFile hne h
    refine ⟨⟨hchanged.working, hchanged.directory, hother, fun q => ?_⟩, fun _ => ?_⟩
    · by_cases hq : q = (d.resolve path).parts
      · exact .inr (hq ▸ hself)
      · exact .inl (hother q hq)
    · rw [Bool.eq_false_iff]
      intro hc
      obtain ⟨place, hl, hs⟩ := contains_eq_true.mp hc
      rw [eq_resolve_of_locate hl, hchanged.resolve, hself] at hs
      cases hs

end Disk

/-- A file that is neither removed nor replaced keeps its stamp. -/
theorem fileStamp_of_kept (hfile : d.isFile path = true) (hpruned : d.Pruned gone d₁)
    (hkept : d₁.KeptIn (· = place) d') (hgone : ¬ gone (d.resolve path).parts)
    (hplace : (d.resolve path).parts ≠ place) (strategy : CacheStrategy) :
    fileStamp d' strategy path = fileStamp d strategy path := by
  obtain ⟨content, hr⟩ := Disk.exists_readContent_of_isFile hfile
  obtain ⟨q, time, hl, hk⟩ := Disk.readContent_eq_ok.mp hr
  obtain rfl := Disk.eq_resolve_of_locate hl
  have hk₁ := (hpruned.same _ hgone).trans hk
  have hl₁ := hpruned.locate hl (by rw [hk₁]; rfl)
  rw [fileStamp_of_locate hl hk,
    fileStamp_of_locate (hkept.locate hl₁) ((hkept.same _ _ _ hplace).mpr hk₁)]

/-! ### Removing modules -/

/-- The place that a text leads to. -/
def Disk.placeOfText (d : Disk) (text : String) : List String :=
  (d.resolve (.ofString text)).parts

theorem outcome_prune_cons (name : String) (rest : List String) (w : World) :
    outcome (prune (name :: rest)) w =
      if w.disk.contains (.ofString name) then
        match w.disk.removeFile (.ofString name) with
        | .ok disk => outcome (prune rest) { w with
            disk
            log := w.log ++ [⟨.cache, .info,
              "Removed stale generated source " ++ (Path.ofString name).text⟩] }
        | .error fault => (.error (.disk fault), w)
      else outcome (prune rest) w := by
  rw [prune, outcome_currentDisk_bind]
  split
  · rw [outcome_bind, outcome_changeDisk]
    cases w.disk.removeFile (.ofString name) with
    | ok disk => rfl
    | error fault => rfl
  · rfl

theorem Disk.Pruned.placeOfText (h : d.Pruned gone d') (text : String) :
    d'.placeOfText text = d.placeOfText text := by
  rw [Disk.placeOfText, h.resolve]
  rfl

/-- Removing modules removes nothing else, whether it succeeds or not. -/
theorem pruned_prune (names : List String) (w : World) :
    w.disk.Pruned (fun q => ∃ name ∈ names, q = w.disk.placeOfText name)
      (outcome (prune names) w).2.disk := by
  induction names generalizing w with
  | nil => exact .refl _ _
  | cons name rest ih =>
    have hmore : ∀ q, (∃ other ∈ rest, q = w.disk.placeOfText other) →
        ∃ other ∈ name :: rest, q = w.disk.placeOfText other := by
      rintro q ⟨other, hm, rfl⟩
      exact ⟨other, mem_cons_of_mem _ hm, rfl⟩
    rw [outcome_prune_cons]
    split
    · split
      · rename_i disk hr
        obtain ⟨hfirst, -⟩ := Disk.pruned_removeFile hr
        have hrest := fun log => ih { w with disk, log }
        refine (hfirst.mono ?_).trans ((hrest _).mono fun q hq => hmore q ?_)
        · rintro q rfl
          exact ⟨name, mem_cons_self, rfl⟩
        · obtain ⟨other, hm, rfl⟩ := hq
          exact ⟨other, hm, hfirst.placeOfText other⟩
      · exact .refl _ _
    · exact (ih w).mono hmore

/-- **What removing modules does**: they are gone, and nothing else has changed. -/
theorem yields_prune (h : Yields (prune names) w u w') :
    w.disk.Pruned (fun q => ∃ name ∈ names, q = w.disk.placeOfText name) w'.disk ∧
      (∀ name ∈ names, w.disk.placeOfText name ≠ [] →
        w'.disk.contains (.ofString name) = false) ∧
      w' = { w with disk := w'.disk, log := w'.log } := by
  have hpruned := pruned_prune names w
  rw [show outcome (prune names) w = _ from h] at hpruned
  refine ⟨hpruned, ?_⟩
  clear hpruned
  induction names generalizing w with
  | nil =>
    obtain ⟨-, rfl⟩ := yields_pure.mp h
    exact ⟨forall_mem_nil _, rfl⟩
  | cons name rest ih =>
    have hback : ∀ v, Yields (prune rest) v u w' → v.disk.contains (.ofString name) = false →
        w'.disk.contains (.ofString name) = false := by
      intro v hv hno
      have hrest := pruned_prune rest v
      rw [show outcome (prune rest) v = _ from hv] at hrest
      rw [Bool.eq_false_iff] at hno ⊢
      exact fun hc => hno (hrest.contains_back hc)
    rw [Yields, outcome_prune_cons] at h
    split at h
    · split at h
      · rename_i disk hr
        obtain ⟨hfirst, hgone⟩ := Disk.pruned_removeFile hr
        obtain ⟨hgones, hw'⟩ := ih h
        refine ⟨forall_mem_cons.mpr ⟨fun hne => hback _ h (hgone hne), ?_⟩, hw'⟩
        intro other hm hne
        exact hgones other hm (hfirst.placeOfText other ▸ hne)
      · cases h
    · rename_i hno
      obtain ⟨hgones, hw'⟩ := ih h
      exact ⟨forall_mem_cons.mpr ⟨fun _ => hback w h (Bool.eq_false_iff.mpr hno), hgones⟩, hw'⟩

/-! ### The modules that are removed -/

theorem sortedTexts_strings (texts : List String) :
    sortedTexts (texts.map .string) = .ok (Text.inOrder id texts.eraseDups) := by
  have htext : (texts.map Json.string).find? (!sortedTexts.isText ·) = none := by
    simp [sortedTexts.isText]
  rw [sortedTexts, htext, filterMap_map]
  simp

/-- The modules that are removed are those recorded that are not written now. -/
theorem abandoned_eq_ok {recorded : List String}
    (h : abandoned (recorded.map .string) written = .ok names) (name : String) :
    name ∈ names ↔ name ∈ recorded ∧ name ∉ written := by
  have hcomposite : (recorded.map Json.string).find? abandoned.isComposite = none := by
    simp [abandoned.isComposite]
  have hfilter : (recorded.map Json.string).filter
      (fun v => !(written.map Json.string).contains v) =
        (recorded.filter (· ∉ written)).map .string := by
    rw [filter_map]
    refine congrArg _ (filter_congr fun s _ => ?_)
    simp
  rw [abandoned, hcomposite, hfilter] at h
  dsimp only at h
  rw [sortedTexts_strings] at h
  obtain rfl := Except.ok.inj h
  simp

theorem mem_writtenKeys {written : List Path} {key : String} :
    key ∈ writtenKeys d written ↔ ∃ path ∈ written, d.key path = key := by
  simp [writtenKeys]

theorem mem_keptOutputs {outputs : List Path} {text : String} :
    text ∈ keptOutputs d outputs ↔ ∃ path ∈ outputs, d.contains path = true ∧ path.text = text := by
  simp [keptOutputs, and_assoc]

/-! ### Records of compilations -/

namespace Cache

variable {cache : Cache} {source : Path} {previous : Option CacheEntry}

/-- The record of a compilation with the given stamps, found modules and written modules. -/
def recordOf (cache : Cache) (d : Disk) (source : Path) (stamps : List (Json × Json))
    (outputs written : List String) : CacheEntry where
  sourceDir := .string (d.key source)
  strategy := cache.strategy
  inputs := stamps
  outputs := outputs.map .string
  written := written.map .string

/-- The names are those of the modules that the previous record has and that are not written. -/
def Drops (previous : Option CacheEntry) (written names : List String) : Prop :=
  match previous with
  | none => names = []
  | some e => abandoned e.written written = .ok names

theorem yields_pruneAbandoned (h : Yields (pruneAbandoned previous written) w u w') :
    ∃ names, Drops previous written names ∧
      w.disk.Pruned (fun q => ∃ name ∈ names, q = w.disk.placeOfText name) w'.disk ∧
      ∀ name ∈ names, w.disk.placeOfText name ≠ [] → w'.disk.contains (.ofString name) = false := by
  cases previous with
  | none =>
    obtain ⟨-, rfl⟩ := yields_pure.mp h
    exact ⟨[], rfl, .refl _ _, forall_mem_nil _⟩
  | some e =>
    change Yields (orFail (abandoned e.written written) >>= prune) w u w' at h
    rw [yields_bind] at h
    obtain ⟨names, w₁, hnames, h⟩ := h
    cases ha : abandoned e.written written with
    | error cause =>
      rw [ha] at hnames
      exact absurd hnames not_yields_throw
    | ok found =>
      rw [ha] at hnames
      obtain ⟨rfl, rfl⟩ := yields_pure.mp hnames
      obtain ⟨hpruned, hgone, -⟩ := yields_prune h
      exact ⟨_, ha, hpruned, hgone⟩

/-- **What recording a compilation does**: modules that are not written any more are removed, and
then the record is stored. -/
theorem yields_record {paths : List Path} (hworking : ∀ name ∈ w.disk.working, ProperName name)
    (hsource : source.Spelled)
    (h : Yields (cache.record source previous stamps result) w paths w') :
    ∃ names d₁ place, Drops previous (writtenKeys w.disk result.written) names ∧
      w.disk.Pruned (fun q => ∃ name ∈ names, q = w.disk.placeOfText name) d₁ ∧
      (∀ name ∈ names, w.disk.placeOfText name ≠ [] → d₁.contains (.ofString name) = false) ∧
      w'.disk.locate (cache.entryPath w.disk source) = .ok place ∧
      d₁.KeptIn (· = place) w'.disk ∧
      cache.Holds w'.disk source (cache.recordOf w.disk source stamps
        (keptOutputs d₁ result.outputs) (writtenKeys w.disk result.written)) ∧
      paths = (keptOutputs d₁ result.outputs).map .ofString := by
  rw [record, yields_currentDisk_bind, yields_bind] at h
  obtain ⟨_, w₁, hprune, h⟩ := h
  rw [yields_currentDisk_bind, yields_bind] at h
  obtain ⟨_, _, hstore, h⟩ := h
  obtain ⟨rfl, rfl⟩ := yields_pure.mp h
  obtain ⟨names, hdrops, hpruned, hgone⟩ := yields_pruneAbandoned hprune
  have hkey : w₁.disk.key source = w.disk.key source := congrArg Path.text (hpruned.resolve source)
  obtain ⟨place, hl, hkept, hholds, -⟩ :=
    yields_store (hpruned.working ▸ hworking) hsource rfl hstore
  rw [entryPath_congr hkey] at hl
  rw [hkey] at hholds
  exact ⟨names, w₁.disk, place, hdrops, hpruned, hgone, hl, hkept, hholds, rfl⟩

/-- A compilation that cannot be recorded has removed nothing but modules that are not written any
more. -/
theorem pruned_of_record_error {e : Error}
    (h : outcome (cache.record source previous stamps result) w = (.error e, w')) :
    ∃ names, (names = [] ∨ Drops previous (writtenKeys w.disk result.written) names) ∧
      w.disk.Pruned (fun q => ∃ name ∈ names, q = w.disk.placeOfText name) w'.disk := by
  have hprune : ∃ names, (names = [] ∨ Drops previous (writtenKeys w.disk result.written) names) ∧
      w.disk.Pruned (fun q => ∃ name ∈ names, q = w.disk.placeOfText name)
        (outcome (pruneAbandoned previous (writtenKeys w.disk result.written)) w).2.disk := by
    cases previous with
    | none => exact ⟨[], .inl rfl, .refl _ _⟩
    | some entry =>
      rw [pruneAbandoned, outcome_bind]
      cases ha : abandoned entry.written (writtenKeys w.disk result.written) with
      | error cause => exact ⟨[], .inl rfl, .refl _ _⟩
      | ok names => exact ⟨names, .inr ha, pruned_prune names w⟩
  rw [record, outcome_currentDisk_bind, outcome_bind] at h
  rcases hp : outcome (pruneAbandoned previous (writtenKeys w.disk result.written)) w with
    ⟨e₁ | _, w₁⟩ <;> rw [hp] at h hprune
  · obtain rfl := (Prod.mk.inj h).2
    exact hprune
  · -- storing fails before it changes anything
    dsimp only at h
    rw [outcome_currentDisk_bind, outcome_bind, outcome_store rfl] at h
    split at h
    · rename_i hs
      split at hs
      · cases hs
        cases h
      · cases hs
    · rename_i hs
      split at hs
      · cases hs
      · cases hs
        obtain rfl := (Prod.mk.inj h).2
        exact hprune

end Cache

end Avroc
