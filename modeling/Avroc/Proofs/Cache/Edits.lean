import Avroc.Proofs.Cache.Aging

/-!
# Edits while a build runs

A directory is compiled through the cache again and again while its inputs are edited.  An edit may
fall between any two steps of a compilation.

* `Cache.readContent_of_up_to_date` : **no edit is lost.**
-/

namespace Avroc

open List

variable {stamps : List (Json × Json)} {basis seen : List Disk} {previous : Option CacheEntry}
  {w w' : World} {disk : Disk} {result : Compilation} {cache : Cache} {source : Path}
  {inputs : List Path} {action : Process Compilation} {s : Cache.Progress}

namespace Cache

/-- One compilation after the other, and edits of inputs at any time. -/
inductive Progress.Moves (cache : Cache) (source : Path) (inputs : List Path)
    (action : Process Compilation) : Progress → Progress → Prop
  | step (s : Progress) : Moves cache source inputs action s (s.advance cache source inputs action)
  | edit {s : Progress} {disk : Disk} (h : s.world.disk.Edited inputs disk) :
    Moves cache source inputs action s { s with world := { s.world with disk } }

section
variable {start d d' : Disk}

/-! ### What is kept -/

/-- A step of an action leaves the directories, the inputs and the record alone. -/
structure Spares (cache : Cache) (source : Path) (inputs : List Path) (w w' : World) : Prop where
  working : w'.disk.working = w.disk.working
  directory : ∀ q, w.disk.root.kind? q = some .directory → w'.disk.root.kind? q = some .directory
  inputs : ∀ p ∈ inputs, w'.disk.root.kind? (w.disk.resolve p).parts =
    w.disk.root.kind? (w.disk.resolve p).parts
  record : w'.disk.root.kind? (cache.entryPlace w.disk source) =
    w.disk.root.kind? (cache.entryPlace w.disk source)

/-- No input is among the modules written. -/
def WritesNoInput (d : Disk) (inputs : List Path) (result : Compilation) : Prop :=
  ∀ p ∈ inputs, ∀ q ∈ result.written, d.resolve (.ofString (d.key q)) ≠ d.resolve p

/-- There is no record, or one with stamps that are older than what its compilation read. -/
def Recorded (cache : Cache) (source : Path) (inputs : List Path) (start : Disk)
    (basis : List Disk) (d : Disk) : Prop :=
  d.root.kind? (cache.entryPlace start source) = none ∨ ∃ (e : CacheEntry) (time : Int),
    d.root.kind? (cache.entryPlace start source) = some (.file (.text e.text) time) ∧
    e.Storable ∧ SparesInputs start inputs e ∧
    ∃ stamps, e.inputs = stamps.map (fun x => (.string x.1, x.2)) ∧
      Stamped start inputs stamps basis d

/-- The phase has stamps that are older than what the action has read. -/
def Phase.Timely (cache : Cache) (source : Path) (inputs : List Path) (start d : Disk) :
    Phase → Prop
  | idle => True
  | stamping previous left stamps =>
    (∀ e ∈ previous, e.Storable ∧ SparesInputs start inputs e) ∧ (∀ p ∈ left, p ∈ inputs) ∧
      ∃ pairs, stamps = pairs.map (fun x => (.string x.1, x.2)) ∧
        Stamped start inputs pairs [] d
  | acting previous stamps seen rest =>
    (∀ e ∈ previous, e.Storable ∧ SparesInputs start inputs e) ∧
      rest.Meets (Spares cache source inputs) (WritesNoInput start inputs) ∧
      ∃ pairs, stamps = pairs.map (fun x => (.string x.1, x.2)) ∧
        Stamped start inputs pairs seen d

/-- What every step and every edit keeps. -/
structure Timely (cache : Cache) (source : Path) (inputs : List Path) (start : Disk)
    (s : Progress) : Prop where
  aged : start.Ages inputs s.world.disk
  recorded : Recorded cache source inputs start s.basis s.world.disk
  phase : s.phase.Timely cache source inputs start s.world.disk

/-- The inputs age, and the record stays. -/
theorem Recorded.mono (h : Recorded cache source inputs start basis d) (hage : d.Ages inputs d')
    (hrecord : d'.root.kind? (cache.entryPlace start source) =
      d.root.kind? (cache.entryPlace start source)) :
    Recorded cache source inputs start basis d' := by
  rw [Recorded, hrecord]
  refine h.imp_right ?_
  rintro ⟨e, time, hk, he, hspares, stamps, hstamps, hstamped⟩
  exact ⟨e, time, hk, he, hspares, stamps, hstamps, hstamped.mono hage⟩

theorem Phase.Timely.mono {phase : Phase} (h : phase.Timely cache source inputs start d)
    (hage : d.Ages inputs d') : phase.Timely cache source inputs start d' := by
  cases phase with
  | idle => trivial
  | stamping previous left stamps =>
    obtain ⟨hprevious, hleft, pairs, hpairs, hstamped⟩ := h
    exact ⟨hprevious, hleft, pairs, hpairs, hstamped.mono hage⟩
  | acting previous stamps seen rest =>
    obtain ⟨hprevious, hrest, pairs, hpairs, hstamped⟩ := h
    exact ⟨hprevious, hrest, pairs, hpairs, hstamped.mono hage⟩

/-! ### Every step keeps it -/

/-- What is loaded is the record, with its stamps in some order. -/
theorem Recorded.load (h : Recorded cache source inputs start basis w.disk)
    (hage : start.Ages inputs w.disk) :
    ∃ previous, outcome (cache.load source) w = (.ok previous, w) ∧
      ∀ e ∈ previous, e.Storable ∧ SparesInputs start inputs e ∧
        ∃ stamps, e.inputs.Perm (stamps.map fun x => (.string x.1, x.2)) ∧
          Stamped start inputs stamps basis w.disk := by
  rw [Recorded, ← entryPlace_of_working hage.working] at h
  rcases h with hnone | ⟨e, time, hk, he, hspares, stamps, hstamps, hstamped⟩
  · exact ⟨none, outcome_load_of_absent (absent_of_kind? hnone), nofun⟩
  · rcases absent_or_holds hk with habsent | hholds
    · exact ⟨none, outcome_load_of_absent habsent, nofun⟩
    · obtain ⟨e', he', hsame, hload⟩ := outcome_load_of_holds he hholds
      refine ⟨some e', hload, ?_⟩
      rintro _ ⟨⟩
      refine ⟨he', fun p hp text hm => hspares p hp text (hsame.written ▸ hm), stamps, ?_, hstamped⟩
      rw [← hstamps]
      exact hsame.inputs

namespace Timely

theorem first (h : cache.Unbuilt w.disk source inputs) :
    Timely cache source inputs w.disk ⟨w, .idle, []⟩ :=
  ⟨.refl _ _, .inl h.unrecorded, trivial⟩

/-- Between compilations only the disk matters. -/
theorem idle (hage : start.Ages inputs w.disk)
    (hrecorded : Recorded cache source inputs start basis w.disk) :
    Timely cache source inputs start ⟨w, .idle, basis⟩ :=
  ⟨hage, hrecorded, trivial⟩

/-- An edit is of an input, and no input is the record. -/
theorem edit (hunbuilt : cache.Unbuilt start source inputs) (h : Timely cache source inputs start s)
    (hedit : s.world.disk.Edited inputs disk) :
    Timely cache source inputs start { s with world := { s.world with disk } } := by
  have hage := Disk.Ages.of_edited hedit
  refine ⟨h.aged.trans hage, h.recorded.mono hage ?_, h.phase.mono hage⟩
  obtain ⟨-, p, hp, -, -, -, -, -, -, -, -, hother⟩ := hedit
  refine hother _ fun heq => hunbuilt.apart p hp (Disk.resolve_eq_of_parts ?_)
  rw [← h.aged.resolve, ← heq]
  rfl

/-- A step of the action has looked at the disk before it changes it. -/
theorem act {change : World → World} {next : World → Process Compilation}
    (h : Timely cache source inputs start
      ⟨w, .acting previous stamps seen (.step change next), basis⟩) :
    Timely cache source inputs start
      ⟨change w, .acting previous stamps (w.disk :: seen) (next w), basis⟩ := by
  obtain ⟨hprevious, hrest, pairs, hpairs, hstamped⟩ := h.phase
  obtain ⟨hspares, hnext⟩ := hrest w
  have hage : w.disk.Ages inputs (change w).disk :=
    .of_same hspares.working hspares.directory fun p hp content time hk =>
      (hspares.inputs p hp).trans hk
  refine ⟨h.aged.trans hage, h.recorded.mono hage ?_, hprevious, hnext, pairs, hpairs,
    (hstamped.look h.aged).mono hage⟩
  rw [← entryPlace_of_working h.aged.working]
  exact hspares.record

/-- Modules are removed, and no input is among them. -/
theorem ages_of_pruned {written names : List String} (hage : start.Ages inputs d)
    (hprevious : ∀ e ∈ previous, e.Storable ∧ SparesInputs start inputs e)
    (hnames : names = [] ∨ Drops previous written names)
    (hpruned : d.Pruned (fun q => ∃ name ∈ names, q = d.placeOfText name) d') :
    d.Ages inputs d' := by
  refine .of_same hpruned.working hpruned.directory fun p hp content time hk => ?_
  rw [hpruned.same, hk]
  rintro ⟨name, hm, heq⟩
  rcases hnames with rfl | hdrops
  · cases hm
  · obtain ⟨e, he, hwritten⟩ := hdrops.mem (fun e he => (hprevious e he).1) hm
    refine (hprevious e he).2 p hp name hwritten (Disk.resolve_eq_of_parts ?_)
    rw [← hage.resolve, ← hage.resolve, heq]
    rfl

/-- A compilation that cannot be recorded leaves the record as it was, or removes it. -/
theorem record_error {e : Error} (h : Timely cache source inputs start
      ⟨w, .acting previous stamps seen (.done (.ok result)), basis⟩)
    (hr : outcome (cache.record source previous stamps result) w = (.error e, w')) :
    Timely cache source inputs start ⟨w', .idle, basis⟩ := by
  obtain ⟨names, hnames, hpruned⟩ := pruned_of_record_error hr
  have hage := ages_of_pruned h.aged h.phase.1 hnames hpruned
  refine .idle (h.aged.trans hage) ?_
  rcases hpruned.less (cache.entryPlace start source) with hsame | hnone
  · exact h.recorded.mono hage hsame
  · exact .inl hnone

/-- **A compilation is recorded with stamps that are older than what it read.** -/
theorem record (hunbuilt : cache.Unbuilt start source inputs) {paths : List Path}
    (h : Timely cache source inputs start
      ⟨w, .acting previous stamps seen (.done (.ok result)), basis⟩)
    (hr : Yields (cache.record source previous stamps result) w paths w') :
    Timely cache source inputs start ⟨w', .idle, seen⟩ := by
  obtain ⟨hprevious, hwritten, pairs, rfl, hstamped⟩ := h.phase
  obtain ⟨names, d₁, place, hdrops, hpruned, -, hl, hkept, hholds, -⟩ :=
    yields_record (h.aged.working ▸ hunbuilt.working) hunbuilt.spelled hr
  have hpruned' := ages_of_pruned h.aged hprevious (.inr hdrops) hpruned
  have hworking : w'.disk.working = start.working :=
    hkept.working.trans (hpruned.working.trans h.aged.working)
  obtain ⟨_, time, hl', hk⟩ := Disk.readContent_eq_ok.mp hholds
  obtain rfl := Disk.eq_resolve_of_locate hl'
  have hplace : place = cache.entryPlace start source := by
    have hkey : w.disk.key source = w'.disk.key source :=
      congrArg Path.text ((hkept.resolve source).trans (hpruned.resolve source)).symm
    rw [entryPath_congr hkey, hl'] at hl
    rw [← Except.ok.inj hl, ← entryPlace_of_working hworking]
    rfl
  -- the record is stored in a place that is no input
  have hstored : d₁.Ages inputs w'.disk := by
    refine .of_same hkept.working hkept.directory fun p hp content time hk => ?_
    refine (hkept.same _ _ _ fun heq => ?_).mpr hk
    refine hunbuilt.apart p hp (Disk.resolve_eq_of_parts ?_)
    rw [← h.aged.resolve, ← hpruned.resolve, heq, hplace]
    rfl
  have hage := hpruned'.trans hstored
  refine .idle (h.aged.trans hage) (.inr ⟨cache.recordOf w.disk source _
    (keptOutputs d₁ result.outputs) (writtenKeys w.disk result.written), time, ?_, ?_, ?_, pairs,
    rfl, hstamped.mono hage⟩)
  · rw [← entryPlace_of_working hworking]
    exact hk
  · exact ⟨_, pairs, _, _, rfl, hstamped.nodup, hstamped.isStamp⟩
  · rintro p hp text hm
    obtain ⟨_, hmem, ⟨⟩⟩ := mem_map.mp hm
    obtain ⟨q, hq, rfl⟩ := mem_writtenKeys.mp hmem
    rw [Disk.key, h.aged.resolve]
    exact hwritten p hp q hq

/-- **Every step keeps what is kept.** -/
theorem advance (hunbuilt : cache.Unbuilt start source inputs)
    (hstrategy : cache.strategy = .lastModified)
    (haction : action.Meets (Spares cache source inputs) (WritesNoInput start inputs))
    (h : Timely cache source inputs start s) :
    Timely cache source inputs start (s.advance cache source inputs action) := by
  obtain ⟨w, phase, basis⟩ := s
  cases phase with
  | idle =>
    obtain ⟨previous, hload, hprevious⟩ := h.recorded.load h.aged
    obtain ⟨hdisk, hfirst⟩ := outcome_inspect hload
    rcases hi : outcome (cache.inspect source inputs) w with ⟨e | ⟨previous', reason⟩, w'⟩ <;>
      rw [hi] at hdisk hfirst <;> simp only [Progress.advance, hi]
    all_goals dsimp only at hdisk
    · refine .idle ?_ ?_ <;> rw [hdisk]
      · exact h.aged
      · exact h.recorded
    · obtain rfl := hfirst _ rfl
      cases reason with
      | none =>
        refine .idle ?_ ?_ <;> rw [hdisk]
        · exact h.aged
        · exact h.recorded
      | some reason =>
        refine ⟨hdisk ▸ h.aged, hdisk ▸ h.recorded, ?_, fun p hp => hp, [], rfl, .nil _ _ _⟩
        exact fun e he => ⟨(hprevious e he).1, (hprevious e he).2.1⟩
  | stamping previous left stamps =>
    obtain ⟨hprevious, hleft, pairs, rfl, hstamped⟩ := h.phase
    cases left with
    | nil => exact ⟨h.aged, h.recorded, hprevious, haction, pairs, rfl, hstamped⟩
    | cons p left =>
      rw [forall_mem_cons] at hleft
      simp only [Progress.advance, hstrategy]
      cases hn : stampNext w.disk .lastModified (pairs.map fun x => (.string x.1, x.2)) p with
      | error e => exact .idle h.aged h.recorded
      | ok stamps =>
        obtain ⟨more, rfl, hmore⟩ := hstamped.next hunbuilt h.aged hleft.1 hn
        exact ⟨h.aged, h.recorded, hprevious, hleft.2, more, rfl, hmore⟩
  | acting previous stamps seen rest =>
    cases rest with
    | step change next => exact h.act
    | done result =>
      cases result with
      | error e => exact .idle h.aged h.recorded
      | ok result =>
        rcases hr : outcome (cache.record source previous stamps result) w with ⟨e | paths, w'⟩ <;>
          simp only [Progress.advance, hr]
        · exact h.record_error hr
        · exact h.record hunbuilt hr

/-- So does every run, with edits at any time. -/
theorem of_moves (hunbuilt : cache.Unbuilt w.disk source inputs)
    (hstrategy : cache.strategy = .lastModified)
    (haction : action.Meets (Spares cache source inputs) (WritesNoInput w.disk inputs))
    (hmoves : Relation.ReflTransGen (Progress.Moves cache source inputs action)
      ⟨w, .idle, []⟩ s) : Timely cache source inputs w.disk s := by
  induction hmoves with
  | refl => exact .first hunbuilt
  | tail _ hmove ih =>
    cases hmove with
    | step => exact ih.advance hunbuilt hstrategy haction
    | edit hedit => exact ih.edit hunbuilt hedit

end Timely

/-! ### No edit is lost -/

/-- **No edit is lost.**  However edits of the inputs fall between the steps of compilations, each
giving its file a later time: when the directory is found to be up to date, every input has the
content that the action of the recorded compilation read. -/
theorem readContent_of_up_to_date {w : World} (hunbuilt : cache.Unbuilt w.disk source inputs)
    (hstrategy : cache.strategy = .lastModified)
    (haction : action.Meets (Spares cache source inputs) (WritesNoInput w.disk inputs))
    {s : Progress} (hmoves : Relation.ReflTransGen (Progress.Moves cache source inputs action)
      ⟨w, .idle, []⟩ s)
    (hfresh : (outcome (cache.isStale source inputs) s.world).1 = .ok false) :
    ∀ p ∈ inputs, ∃ content, s.world.disk.readContent p = .ok content ∧
      ∀ d ∈ s.basis, d.readContent p = .ok content := by
  have htimely := Timely.of_moves hunbuilt hstrategy haction hmoves
  obtain ⟨previous, hload, hprevious⟩ := htimely.recorded.load htimely.aged
  rw [outcome_isStale hload] at hfresh
  cases previous with
  | none => cases hfresh
  | some e =>
    obtain ⟨-, -, stamps, hperm, hstamped⟩ := hprevious e rfl
    have hnone : cache.staleness s.world.disk (some e) inputs = .ok none := by
      cases hs : cache.staleness s.world.disk (some e) inputs with
      | error cause => rw [hs] at hfresh; cases hfresh
      | ok reason =>
        rw [hs] at hfresh
        cases reason with
        | none => rfl
        | some reason => cases hfresh
    obtain ⟨hsame, hholds⟩ := inputs_of_staleness hnone
    rw [hstrategy] at hholds
    exact fun p hp => hstamped.readContent hunbuilt htimely.aged hp hperm hholds hsame

end

/-! ### An edit between the look at the record and the stamps -/

/-- An action that writes one module, in one step. -/
def writesOne : Process Compilation :=
  .atom (writesModule "a.py")

/-- The disk with one input, after an edit. -/
def editedDisk : Disk :=
  { freshDisk with root := Node.set 7 (.file (.text "B") 6) freshDisk.root ["p", "a.avsc"] }

/-- Five steps of a compilation, with an edit after the first. -/
def Progress.editedEarly (cache : Cache) (source : Path) (inputs : List Path)
    (action : Process Compilation) (disk : Disk) (s : Progress) : Progress :=
  let next := Progress.advance cache source inputs action
  next (next (next (next { next s with world := { (next s).world with disk } })))

theorem Progress.reaches_editedEarly
    (h : (s.advance cache source inputs action).world.disk.Edited inputs disk) :
    Relation.ReflTransGen (Moves cache source inputs action) s
      (s.editedEarly cache source inputs action disk) :=
  .tail (.tail (.tail (.tail (.tail (.single (.step s)) (.edit h)) (.step _)) (.step _)) (.step _))
    (.step _)

/-- A first compilation, with an edit after the look at the record. -/
def lateEdit : Progress :=
  Progress.editedEarly timedCache ⟨"", []⟩ [⟨"", ["a.avsc"]⟩] writesOne editedDisk
    ⟨.onDisk freshDisk, .idle, []⟩

theorem natAbs_six_lt : (6 : Int).natAbs < Nat.pow 10 maxDigits :=
  Json.lt_pow_of_lt_ten (by decide) (by decide)

/-- Whether the directory is up to date after an action that looked at the disk, and its input has
the given text. -/
def Progress.isUpToDate (s : Progress) (text : String) : Bool :=
  match (outcome (timedCache.isStale ⟨"", []⟩ [⟨"", ["a.avsc"]⟩]) s.world).1,
    s.world.disk.readContent ⟨"", ["a.avsc"]⟩ with
  | .ok false, .ok (.text found) => !s.basis.isEmpty && found == text
  | _, _ => false

theorem Progress.of_isUpToDate {text : String} (h : s.isUpToDate text = true) :
    (outcome (timedCache.isStale ⟨"", []⟩ [⟨"", ["a.avsc"]⟩]) s.world).1 = .ok false ∧
      s.basis ≠ [] ∧ s.world.disk.readContent ⟨"", ["a.avsc"]⟩ = .ok (.text text) := by
  rw [isUpToDate] at h
  split at h
  · rename_i found hstale hread
    rw [Bool.and_eq_true, beq_iff_eq] at h
    exact ⟨hstale, fun hb => by simp [hb] at h, h.2 ▸ hread⟩
  · cases h

theorem isUpToDate_lateEdit : lateEdit.isUpToDate "B" = true := by
  decide +kernel

theorem unbuilt_fresh : timedCache.Unbuilt freshDisk ⟨"", []⟩ [⟨"", ["a.avsc"]⟩] where
  toReady := { ready_fresh with }
  inputsSpelled := forall_mem_singleton.mpr
    ⟨.inl rfl, forall_mem_singleton.mpr (.inr (by unfold ProperName; decide))⟩
  unrecorded := by
    have hnone : (freshDisk.root.kind?
        (timedCache.entryPlace freshDisk ⟨"", []⟩)).isNone = true := by
      decide +kernel
    exact Option.isNone_iff_eq_none.mp hnone

theorem reaches_lateEdit : Relation.ReflTransGen
    (Progress.Moves timedCache ⟨"", []⟩ [⟨"", ["a.avsc"]⟩] writesOne)
    ⟨.onDisk freshDisk, .idle, []⟩ lateEdit := by
  refine Progress.reaches_editedEarly ?_
  have habsent := absent_of_kind? unbuilt_fresh.unrecorded
  rw [Progress.disk_advance_idle (outcome_load_of_absent habsent)]
  exact Disk.edited_set (mem_singleton.mpr rfl) rfl (by decide) natAbs_six_lt rfl

theorem meets_writesOne : writesOne.Meets (Spares timedCache ⟨"", []⟩ [⟨"", ["a.avsc"]⟩])
    (WritesNoInput freshDisk [⟨"", ["a.avsc"]⟩]) := by
  refine Process.meets_atom fun w => ?_
  rw [writesModule, outcome_bind, outcome_changeDisk]
  cases hw : w.disk.writeFile ⟨"", ["a.py"]⟩ (.text "a") with
  | error fault => exact ⟨⟨rfl, fun _ h => h, fun _ _ => rfl, rfl⟩, fun a ha => by cases ha⟩
  | ok disk =>
    obtain ⟨parent, hl, -, -, hkept, -, hother⟩ := Disk.writeFile_spec rfl (by decide) hw
    obtain rfl := Disk.eq_resolve_of_locate hl
    refine ⟨⟨hkept.working, hkept.directory, forall_mem_singleton.mpr (hother _ ?_),
      hother _ ?_⟩, fun a ha => ?_⟩
    · exact fun heq => absurd (append_cancel_left heq) (by decide)
    · -- the record is one directory further down
      intro heq
      obtain ⟨name, ⟨-, -, hname, -⟩, -, hpath⟩ := timedCache.exists_entryPath w.disk ⟨"", []⟩
      have hplace : timedCache.entryPlace w.disk ⟨"", []⟩ = w.disk.working ++ ["c", name] := by
        rw [entryPlace, hpath]
        exact Disk.climb_of_notMem (by simp [timedCache, Ne.symm hname]) _
      have hlength := congrArg List.length (hplace.symm.trans heq)
      rw [length_append, length_append] at hlength
      exact absurd (Nat.add_left_cancel hlength) (by simp)
    · cases ha
      rw [WritesNoInput]
      decide +kernel

theorem readContent_of_up_to_date_late : ∃ s : Progress,
    Relation.ReflTransGen (Progress.Moves timedCache ⟨"", []⟩ [⟨"", ["a.avsc"]⟩] writesOne)
      ⟨.onDisk freshDisk, .idle, []⟩ s ∧
    (outcome (timedCache.isStale ⟨"", []⟩ [⟨"", ["a.avsc"]⟩]) s.world).1 = .ok false ∧
    s.basis ≠ [] ∧ ∀ d ∈ s.basis, d.readContent ⟨"", ["a.avsc"]⟩ = .ok (.text "B") := by
  have htest := isUpToDate_lateEdit
  have hmoves := reaches_lateEdit
  generalize lateEdit = s at htest hmoves
  obtain ⟨hstale, hbasis, hread⟩ := Progress.of_isUpToDate htest
  refine ⟨s, hmoves, hstale, hbasis, fun d hd => ?_⟩
  obtain ⟨content, hnow, hseen⟩ := readContent_of_up_to_date (w := .onDisk freshDisk) unbuilt_fresh
    rfl meets_writesOne hmoves hstale _ (mem_singleton.mpr rfl)
  rw [hseen d hd, ← hnow, hread]

end Cache

end Avroc
