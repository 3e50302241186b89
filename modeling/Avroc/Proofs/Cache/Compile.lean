import Avroc.Proofs.Cache.Recording

/-!
# Compiling through the cache

A compilation through the cache either finds a record that holds, and returns the modules found
when it was made, or it stamps the inputs, invokes its action and records what this did.

* `Cache.compile_sound` : **the cache is never poisoned, and hits exactly after success.**
-/

namespace Avroc

open List

namespace Cache

variable {cache : Cache} {source : Path} {inputs paths : List Path} {previous : Option CacheEntry}
  {d : Disk} {w w' v : World} {stamps : List (Json × Json)} {e : CacheEntry}

/-! ### Hits and misses -/

/-- The state in which the action is invoked: the reason has been logged. -/
def announced (source : Path) (reason : Staleness) (w : World) : World :=
  { w with log := w.log ++
    [⟨.cache, .info, "Compiling " ++ source.text ++ ": " ++ reason.message⟩] }

section
variable (hload : outcome (cache.load source) w = (.ok previous, w))
include hload

theorem outcome_isStale :
    outcome (cache.isStale source inputs) w =
      ((cache.staleness w.disk previous inputs).map Option.isSome, w) := by
  rw [isStale, outcome_bind, hload]
  dsimp only
  rw [outcome_currentDisk_bind, outcome_bind, outcome_liftM]
  cases cache.staleness w.disk previous inputs <;> rfl

/-- A compilation looks at the record.  One that holds gives the modules found when it was made;
otherwise the inputs are stamped, the action is invoked, and what it did is recorded. -/
theorem outcome_compile (inputs : List Path) (action : Build Compilation) :
    outcome (cache.compile source inputs action) w =
      match cache.staleness w.disk previous inputs with
      | .error e => (.error e, w)
      | .ok none => (((previous.map (·.outputs)).getD []).mapM pathOf, { w with
          log := w.log ++ [⟨.cache, .info, "Up to date: " ++ source.text⟩] })
      | .ok (some reason) =>
        match stampInputs w.disk cache.strategy inputs with
        | .ok stamps =>
          outcome (action >>= cache.record source previous stamps) (announced source reason w)
        | .error e => (.error e, announced source reason w) := by
  rw [compile, outcome_bind, hload]
  dsimp only
  rw [outcome_currentDisk_bind, outcome_bind, outcome_liftM]
  cases cache.staleness w.disk previous inputs with
  | error e => rfl
  | ok reason =>
    cases reason with
    | none =>
      dsimp only
      rw [outcome_bind]
      exact outcome_liftM _ _
    | some reason =>
      dsimp only
      rw [outcome_bind, show outcome (report .cache .info ("Compiling " ++ source.text ++ ": " ++
        reason.message)) w = (.ok (), announced source reason w) from rfl]
      dsimp only
      rw [recompile, outcome_currentDisk_bind, outcome_bind, outcome_liftM]
      rw [show (announced source reason w).disk = w.disk from rfl]
      cases stampInputs w.disk cache.strategy inputs <;> rfl

theorem outcome_compile_of_hit (h : cache.staleness w.disk previous inputs = .ok none)
    (action : Build Compilation) :
    outcome (cache.compile source inputs action) w =
      (((previous.map (·.outputs)).getD []).mapM pathOf, { w with
        log := w.log ++ [⟨.cache, .info, "Up to date: " ++ source.text⟩] }) := by
  rw [outcome_compile hload, h]

theorem outcome_compile_of_miss {reason : Staleness}
    (h : cache.staleness w.disk previous inputs = .ok (some reason))
    (hstamps : stampInputs w.disk cache.strategy inputs = .ok stamps) (action : Build Compilation) :
    outcome (cache.compile source inputs action) w =
      outcome (action >>= cache.record source previous stamps) (announced source reason w) := by
  rw [outcome_compile hload, h, hstamps]

end

/-- The compilation invokes its action, once and in the state `v`. -/
def InvokesIn (cache : Cache) (source : Path) (inputs : List Path) (w v : World) : Prop :=
  v.disk = w.disk ∧ ∃ rest : Compilation → Build (List Path), ∀ action,
    outcome (cache.compile source inputs action) w = outcome (action >>= rest) v

/-- The compilation invokes its action. -/
def Invokes (cache : Cache) (source : Path) (inputs : List Path) (w : World) : Prop :=
  ∃ v, cache.InvokesIn source inputs w v

theorem InvokesIn.outcome_throw (h : cache.InvokesIn source inputs w v) (e : Error) :
    outcome (cache.compile source inputs (throw e)) w = (.error e, v) := by
  obtain ⟨-, rest, hrest⟩ := h
  rw [hrest, outcome_bind]
  rfl

/-- There is one state in which an action is invoked. -/
theorem InvokesIn.unique {v' : World} (h : cache.InvokesIn source inputs w v)
    (h' : cache.InvokesIn source inputs w v') : v = v' := by
  have hthrow := (h.outcome_throw (.missingKey "version")).symm.trans (h'.outcome_throw _)
  exact (Prod.mk.inj hthrow).2

/-- An action whose outcome makes no difference is not invoked. -/
theorem not_invokes {r : Except Error (List Path) × World}
    (h : ∀ action, outcome (cache.compile source inputs action) w = r) :
    ¬ cache.Invokes source inputs w := by
  rintro ⟨v, hv⟩
  have hne := (hv.outcome_throw (.missingKey "version")).symm.trans
    ((h _).trans ((h _).symm.trans (hv.outcome_throw (.missingKey "inputs"))))
  simp at hne

/-- **A compilation that returns is a hit or a miss.** -/
theorem yields_compile {action : Build Compilation}
    (hload : outcome (cache.load source) w = (.ok previous, w))
    (h : Yields (cache.compile source inputs action) w paths w') :
    (cache.staleness w.disk previous inputs = .ok none ∧ w'.disk = w.disk ∧
      ¬ cache.Invokes source inputs w) ∨
    ∃ reason stamps result v,
      cache.staleness w.disk previous inputs = .ok (some reason) ∧
      stampInputs w.disk cache.strategy inputs = .ok stamps ∧
      cache.InvokesIn source inputs w (announced source reason w) ∧
      Yields action (announced source reason w) result v ∧
      Yields (cache.record source previous stamps result) v paths w' := by
  cases hs : cache.staleness w.disk previous inputs with
  | error e =>
    rw [Yields, outcome_compile hload, hs] at h
    cases h
  | ok reason =>
    cases reason with
    | none =>
      have hhit := outcome_compile_of_hit hload hs
      rw [Yields, hhit] at h
      exact .inl ⟨rfl, by rw [← (Prod.mk.inj h).2], not_invokes hhit⟩
    | some reason =>
      cases hstamps : stampInputs w.disk cache.strategy inputs with
      | error e =>
        rw [Yields, outcome_compile hload, hs, hstamps] at h
        cases h
      | ok stamps =>
        have hmiss := outcome_compile_of_miss hload hs hstamps
        rw [Yields, hmiss] at h
        obtain ⟨result, v, haction, hrecord⟩ := yields_bind.mp h
        exact .inr ⟨reason, stamps, result, v, rfl, rfl, ⟨rfl, _, hmiss⟩, haction, hrecord⟩

/-! ### The file of the record -/

/-- The file of the record is in the directory of the cache. -/
theorem node_entryPath {d : Disk} {node : Node} :
    d.node (cache.entryPath d source) = .ok node ↔ ∃ entries time,
      d.node cache.directory = .ok (.directory entries time) ∧
        entries.lookup (cache.entryPath d source).name = some node := by
  obtain ⟨name, ⟨-, -, hname, -⟩, -, hpath⟩ := cache.exists_entryPath d source
  have hlast : (cache.entryPath d source).name = name := by
    rw [hpath, Path.name, getLast?_concat]
    rfl
  rw [hlast, hpath, Disk.node_eq_ok]
  simp only [Disk.node_eq_ok, Disk.locate, Disk.follow_append_eq_ok]
  constructor
  · rintro ⟨place, ⟨parent, hparent, hl⟩, hn⟩
    obtain ⟨hdir, ⟨hdots, -⟩ | ⟨-, -, hl⟩⟩ := Disk.follow_cons_eq_ok.mp hl
    · exact absurd hdots hname
    · obtain rfl := Except.ok.inj hl
      obtain ⟨entries, time, hat⟩ := Disk.at?_of_directory hdir
      rw [Node.at?_concat, hat] at hn
      exact ⟨entries, time, ⟨parent, hparent, hat⟩, hn⟩
  · rintro ⟨entries, time, ⟨parent, hparent, hat⟩, hn⟩
    have hn' : d.root.at? (parent ++ [name]) = some node := by
      rw [Node.at?_concat, hat]
      exact hn
    refine ⟨parent ++ [name], ⟨parent, hparent, ?_⟩, hn'⟩
    refine Disk.follow_cons_eq_ok.mpr ⟨?_, .inr ⟨hname, ?_, rfl⟩⟩
    · rw [Node.kind?, hat]
      rfl
    · rw [Node.kind?, hn']
      rfl

/-! ### What a compilation may rely on -/

/-- The inputs are files, other than that of the record, with times that can be recorded. -/
structure Ready (cache : Cache) (d : Disk) (source : Path) (inputs : List Path) : Prop where
  working : ∀ name ∈ d.working, ProperName name
  spelled : source.Spelled
  files : ∀ p ∈ inputs, d.isFile p = true
  dated : ∀ p ∈ inputs, d.Dated p
  apart : ∀ p ∈ inputs, d.resolve p ≠ d.resolve (cache.entryPath d source)

/-- No input is among the modules that the record has as written. -/
def SparesInputs (d : Disk) (inputs : List Path) (e : CacheEntry) : Prop :=
  ∀ p ∈ inputs, ∀ text, .string text ∈ e.written → d.resolve (.ofString text) ≠ d.resolve p

/-- There is no record of the source directory, or one that has no input among its modules. -/
def Settled (cache : Cache) (d : Disk) (source : Path) (inputs : List Path) : Prop :=
  cache.Absent d source ∨
    ∃ e : CacheEntry, e.Storable ∧ cache.Holds d source e ∧ SparesInputs d inputs e

/-- From the first disk to the second, the inputs and the directory of the cache are left alone. -/
structure LeavesAlone (cache : Cache) (inputs : List Path) (d d' : Disk) : Prop where
  working : d'.working = d.working
  inputs : ∀ p ∈ inputs, d'.node p = d.node p
  directory : d'.node cache.directory = d.node cache.directory

theorem Settled.load (h : cache.Settled w.disk source inputs) : ∃ previous,
    outcome (cache.load source) w = (.ok previous, w) ∧
      ∀ e ∈ previous, e.Storable ∧ SparesInputs w.disk inputs e := by
  rcases h with h | ⟨e, he, hholds, hspares⟩
  · exact ⟨none, outcome_load_of_absent h, nofun⟩
  · obtain ⟨e', he', hsame, hload⟩ := outcome_load_of_holds he hholds
    refine ⟨some e', hload, ?_⟩
    rintro _ ⟨⟩
    refine ⟨he', fun p hp text hm => hspares p hp text ?_⟩
    rwa [← hsame.written]

theorem Ready.stamped (h : cache.Ready w.disk source inputs) :
    ∀ p ∈ inputs, ∃ stamp, fileStamp w.disk cache.strategy p = .ok stamp := by
  intro p hp
  obtain ⟨content, hr⟩ := Disk.exists_readContent_of_isFile (h.files p hp)
  obtain ⟨place, time, hl, hk⟩ := Disk.readContent_eq_ok.mp hr
  exact ⟨_, fileStamp_of_locate hl hk⟩

theorem Ready.stampInputs (h : cache.Ready w.disk source inputs) :
    stampInputs w.disk cache.strategy inputs =
      .ok ((inputStamps w.disk cache.strategy inputs).map fun x => (.string x.1, x.2)) :=
  stampInputs_eq_ok.mpr ⟨h.stamped, rfl⟩

/-- Whether a directory is stale can be told, and this is whether its action is invoked. -/
theorem exists_isStale (hready : cache.Ready w.disk source inputs)
    (hload : outcome (cache.load source) w = (.ok previous, w))
    (hstorable : ∀ e ∈ previous, e.Storable) : ∃ stale,
      outcome (cache.isStale source inputs) w = (.ok stale, w) ∧
        (cache.Invokes source inputs w ↔ stale = true) := by
  have hreason : ∃ reason, cache.staleness w.disk previous inputs = .ok reason := by
    cases previous with
    | none => exact ⟨_, rfl⟩
    | some e => exact exists_staleness (hstorable e rfl) _ _
  obtain ⟨reason, hreason⟩ := hreason
  refine ⟨reason.isSome, by rw [outcome_isStale hload, hreason]; rfl, ?_⟩
  cases reason with
  | none =>
    exact iff_of_false (not_invokes (outcome_compile_of_hit hload hreason)) Bool.false_ne_true
  | some reason =>
    exact iff_of_true ⟨announced source reason w, rfl, _,
      outcome_compile_of_miss hload hreason hready.stampInputs⟩ rfl

/-! ### After a miss -/

theorem mapM_pathOf (texts : List String) :
    (texts.map Json.string).mapM pathOf = .ok (texts.map .ofString) := by
  induction texts with
  | nil => rfl
  | cons s texts ih =>
    rw [map_cons, mapM_cons, ih]
    rfl

/-- The record with the stamps of the inputs can be stored. -/
theorem storable_recordOf (hdated : ∀ p ∈ inputs, d.Dated p)
    (hstamped : ∀ p ∈ inputs, ∃ stamp, fileStamp d cache.strategy p = .ok stamp) (d' : Disk)
    (outputs written : List String) : (cache.recordOf d' source
      ((inputStamps d cache.strategy inputs).map fun x => (.string x.1, x.2)) outputs
      written).Storable := by
  refine ⟨d'.key source, inputStamps d cache.strategy inputs, outputs, written, rfl,
    nodup_inputStamps d cache.strategy inputs, fun x hx => ?_⟩
  obtain ⟨y, hy, rfl⟩ := mem_map.mp hx
  have hp := ((keyedInputs_spec d inputs).2 y hy).1
  obtain ⟨stamp, hstamp⟩ := hstamped y.2 hp
  rw [stampOf_eq hstamp]
  exact isStamp_of_fileStamp (hdated y.2 hp) hstamp

/-- A module that is removed is one that the previous record has. -/
theorem Drops.mem {written names : List String} (h : Drops previous written names)
    (hstorable : ∀ e ∈ previous, e.Storable) {name : String} (hm : name ∈ names) :
    ∃ e ∈ previous, .string name ∈ e.written := by
  cases previous with
  | none =>
    obtain rfl : names = [] := h
    cases hm
  | some e =>
    refine ⟨e, rfl, ?_⟩
    obtain ⟨_, _, _, texts, heq, -, -⟩ := hstorable e rfl
    rw [Drops, heq] at h
    rw [heq]
    exact mem_map_of_mem ((abandoned_eq_ok h name).mp hm).1

/-- **After a miss the directory is up to date**, as long as the disk stays as it is. -/
theorem hit_of_record {result : Compilation} (hready : cache.Ready d source inputs)
    (hprevious : ∀ e ∈ previous, e.Storable ∧ SparesInputs d inputs e)
    (halone : cache.LeavesAlone inputs d w.disk) (hspelled : ∀ p ∈ result.outputs, p.Spelled)
    (hstamps : stampInputs d cache.strategy inputs = .ok stamps)
    (h : Yields (cache.record source previous stamps result) w paths w') :
    ∃ outputs, paths = outputs.map .ofString ∧
      let stored := cache.recordOf d source stamps outputs (writtenKeys w.disk result.written)
      cache.Holds w'.disk source stored ∧ stored.Storable ∧
        ∀ e : CacheEntry, e.Same stored → cache.Fits w'.disk inputs e := by
  obtain ⟨names, d₁, place, hdrops, hpruned, -, hplace, hkept, hholds, rfl⟩ :=
    yields_record (halone.working ▸ hready.working) hready.spelled h
  obtain ⟨hstamped, rfl⟩ := stampInputs_eq_ok.mp hstamps
  have hresolve : ∀ p, w.disk.resolve p = d.resolve p := by
    intro p
    rw [Disk.resolve, Disk.resolve, halone.working]
  have hworking : w'.disk.working = d.working :=
    hkept.working.trans (hpruned.working.trans halone.working)
  have hkey : w.disk.key source = d.key source := congrArg Path.text (hresolve source)
  have hstamp : ∀ p ∈ inputs,
      fileStamp w'.disk cache.strategy p = fileStamp d cache.strategy p := by
    intro p hp
    rw [← fileStamp_congr (halone.inputs p hp) cache.strategy]
    have hfile : w.disk.isFile p = true := by
      rw [Disk.isFile, halone.inputs p hp]
      exact hready.files p hp
    -- an input is neither a module that is removed nor the file of the record
    refine fileStamp_of_kept hfile hpruned hkept ?_ ?_ cache.strategy
    · rintro ⟨name, hm, hname⟩
      obtain ⟨e, he, hwritten⟩ := hdrops.mem (fun e he => (hprevious e he).1) hm
      refine (hprevious e he).2 p hp name hwritten (Disk.resolve_eq_of_parts ?_)
      rw [← hresolve, ← hresolve, hname]
      rfl
    · intro heq
      refine hready.apart p hp (Disk.resolve_eq_of_parts ?_)
      rw [← hresolve, heq, Disk.eq_resolve_of_locate hplace, Disk.resolve, hworking,
        entryPath_congr hkey]
      rfl
  refine ⟨keptOutputs d₁ result.outputs, rfl, ?_, storable_recordOf hready.dated hstamped d _ _, ?_⟩
  · rw [recordOf, hkey] at hholds
    exact hholds
  · intro e hsame
    refine ⟨hsame.strategy, fun p hp => hstamp p hp ▸ hstamped p hp, ?_,
      keptOutputs d₁ result.outputs, hsame.outputs, fun text hm => ?_⟩
    · rw [inputStamps_congr hworking hstamp]
      exact hsame.inputs
    · obtain ⟨p, hp, hc, rfl⟩ := mem_keptOutputs.mp hm
      rw [(hspelled p hp).ofString_text]
      obtain ⟨q, hl, hs⟩ := Disk.contains_eq_true.mp hc
      exact Disk.contains_eq_true.mpr ⟨q, hkept.locate hl, hkept.isSome_kind? hs⟩

/-- Whether a record fits does not depend on the clock. -/
theorem Fits.withNow (h : cache.Fits d inputs e) (now : Int) :
    cache.Fits { d with now } inputs e :=
  ⟨h.strategy, h.stamped, h.inputs, h.outputs⟩

/-- A directory with a record that fits is up to date, and its modules are those recorded. -/
theorem hit_of_fits {stored : CacheEntry} {outputs : List String} (hstorable : stored.Storable)
    (hholds : cache.Holds w.disk source stored) (houtputs : stored.outputs = outputs.map .string)
    (hfits : ∀ e : CacheEntry, e.Same stored → cache.Fits w.disk inputs e) :
    (∃ loaded : CacheEntry, loaded.Same stored ∧
      outcome (cache.load source) w = (.ok (some loaded), w)) ∧
      outcome (cache.isStale source inputs) w = (.ok false, w) ∧
      ¬ cache.Invokes source inputs w ∧
      ∀ action, ∃ w', Yields (cache.compile source inputs action) w (outputs.map .ofString) w' ∧
        w'.disk = w.disk := by
  obtain ⟨e, -, hsame, hload⟩ := outcome_load_of_holds hstorable hholds
  have hnone := staleness_of_fits (hfits e hsame)
  have hpaths : ((some e).map (·.outputs)).getD [] = outputs.map .string :=
    hsame.outputs.trans houtputs
  refine ⟨⟨e, hsame, hload⟩, ?_, not_invokes (outcome_compile_of_hit hload hnone), fun action => ?_⟩
  · rw [outcome_isStale hload, hnone]
    rfl
  · have hcompile := outcome_compile_of_hit hload hnone action
    rw [hpaths, mapM_pathOf] at hcompile
    exact ⟨_, hcompile, rfl⟩

/-- **The cache is never poisoned, and hits exactly after success.**  The action is invoked exactly
when the directory is stale; an action that fails leaves the record as it was; and what a
compilation returns after a miss, every further one returns as long as the files stay. -/
theorem compile_sound {action : Build Compilation} (hready : cache.Ready w.disk source inputs)
    (hsettled : cache.Settled w.disk source inputs)
    (halone : ∀ v, v.disk = w.disk → cache.LeavesAlone inputs w.disk (outcome action v).2.disk)
    (hspelled : ∀ v result v', v.disk = w.disk → Yields action v result v' →
      ∀ p ∈ result.outputs, p.Spelled) :
    ∃ stale, outcome (cache.isStale source inputs) w = (.ok stale, w) ∧
      (cache.Invokes source inputs w ↔ stale = true) ∧
      (∀ v e v', cache.InvokesIn source inputs w v → outcome action v = (.error e, v') →
        outcome (cache.compile source inputs action) w = (.error e, v') ∧
          ∀ node, v'.disk.node (cache.entryPath v'.disk source) = .ok node ↔
            w.disk.node (cache.entryPath w.disk source) = .ok node) ∧
      (stale = true → ∀ paths w', Yields (cache.compile source inputs action) w paths w' →
        ∃ v result v₁ stamps outputs, cache.InvokesIn source inputs w v ∧
          Yields action v result v₁ ∧
          stampInputs w.disk cache.strategy inputs = .ok stamps ∧ paths = outputs.map .ofString ∧
          let stored := cache.recordOf w.disk source stamps outputs
            (writtenKeys v₁.disk result.written)
          cache.Holds w'.disk source stored ∧
            ∀ v now, v.disk = { w'.disk with now } →
              (∃ loaded : CacheEntry, loaded.Same stored ∧
                outcome (cache.load source) v = (.ok (some loaded), v)) ∧
              outcome (cache.isStale source inputs) v = (.ok false, v) ∧
              ¬ cache.Invokes source inputs v ∧
              ∀ action', ∃ v', Yields (cache.compile source inputs action') v paths v' ∧
                v'.disk = v.disk) := by
  obtain ⟨previous, hload, hprevious⟩ := hsettled.load
  obtain ⟨stale, hstale, hiff⟩ :=
    exists_isStale hready hload fun e he => (hprevious e he).1
  refine ⟨stale, hstale, hiff, ?_, ?_⟩
  · rintro v e v' ⟨hv, rest, hrest⟩ hfails
    refine ⟨by rw [hrest, outcome_bind, hfails], fun node => ?_⟩
    have hleft := halone v hv
    rw [hfails] at hleft
    have hkey : v'.disk.key source = w.disk.key source := by
      rw [Disk.key, Disk.key, Disk.resolve, Disk.resolve, hleft.working]
    rw [node_entryPath, node_entryPath, hleft.directory, entryPath_congr hkey]
  · rintro rfl paths w' hyields
    rcases yields_compile hload hyields with ⟨-, -, hnot⟩ |
      ⟨reason, stamps, result, v₁, -, hstamps, hinvokes, haction, hrecord⟩
    · exact absurd (hiff.mpr rfl) hnot
    have hleft := halone (announced source reason w) rfl
    rw [haction] at hleft
    obtain ⟨outputs, rfl, hholds, hstorable, hfits⟩ := hit_of_record hready hprevious hleft
      (hspelled (announced source reason w) result v₁ rfl haction) hstamps hrecord
    refine ⟨announced source reason w, result, v₁, stamps, outputs, hinvokes, haction, hstamps, rfl,
      hholds, fun v now hv => ?_⟩
    refine hit_of_fits hstorable ?_ rfl fun e he => ?_ <;> rw [hv]
    · exact hholds
    · exact (hfits e he).withNow now

/-! ### A first compilation -/

/-- A disk with one input and no cache. -/
def freshDisk : Disk :=
  ⟨.directory [("p", .directory [("a.avsc", .file (.text "A") 5), ("s", .directory [] 5)] 5)] 5,
    ["p"], 7, []⟩

/-- The cache that is made on this disk. -/
def digestCache : Cache := ⟨⟨"", ["c"]⟩, .hash⟩

/-- Writes one module. -/
def writesModule (name : String) : Build Compilation := do
  changeDisk (·.writeFile ⟨"", [name]⟩ (.text "a"))
  return ⟨[⟨"", [name]⟩], [⟨"", [name]⟩], []⟩

theorem absent_fresh : digestCache.Absent freshDisk ⟨"", []⟩ := by
  rw [Absent]
  decide +kernel

theorem natAbs_five_lt : (5 : Int).natAbs < Nat.pow 10 maxDigits :=
  Json.lt_pow_of_lt_ten (by decide) (by decide)

theorem ready_fresh : digestCache.Ready freshDisk ⟨"", []⟩ [⟨"", ["a.avsc"]⟩] where
  working := forall_mem_singleton.mpr (by unfold ProperName; decide)
  spelled := ⟨.inl rfl, forall_mem_nil _⟩
  files := by decide
  dated := by
    rw [forall_mem_singleton]
    rintro node ⟨⟩
    exact natAbs_five_lt
  apart := by decide +kernel

theorem leavesAlone_writesModule (v : World) (hv : v.disk = freshDisk) :
    digestCache.LeavesAlone [⟨"", ["a.avsc"]⟩] freshDisk
      (outcome (writesModule "a.py") v).2.disk := by
  obtain ⟨disk, catalog, shared, log⟩ := v
  obtain rfl : disk = freshDisk := hv
  exact ⟨rfl, forall_mem_singleton.mpr rfl, rfl⟩

theorem compile_sound_first : ∃ paths w', Yields (digestCache.compile ⟨"", []⟩ [⟨"", ["a.avsc"]⟩]
      (writesModule "a.py")) (.onDisk freshDisk) paths w' ∧
    digestCache.Invokes ⟨"", []⟩ [⟨"", ["a.avsc"]⟩] (.onDisk freshDisk) ∧
    outcome (digestCache.isStale ⟨"", []⟩ [⟨"", ["a.avsc"]⟩]) w' = (.ok false, w') ∧
    ¬ digestCache.Invokes ⟨"", []⟩ [⟨"", ["a.avsc"]⟩] w' := by
  have hspelled : ∀ v result v', v.disk = freshDisk → Yields (writesModule "a.py") v result v' →
      ∀ p ∈ result.outputs, p.Spelled := by
    rintro ⟨disk, catalog, shared, log⟩ result v' hv h
    obtain rfl : disk = freshDisk := hv
    cases h
    rw [forall_mem_singleton]
    exact ⟨.inl rfl, forall_mem_singleton.mpr (.inr (by unfold ProperName; decide))⟩
  obtain ⟨stale, hstale, hiff, -, hmiss⟩ := compile_sound (w := .onDisk freshDisk) ready_fresh
    (.inl absent_fresh) leavesAlone_writesModule hspelled
  have htrue : stale = true := by
    rw [outcome_isStale (outcome_load_of_absent absent_fresh)] at hstale
    cases hstale
    rfl
  obtain ⟨paths, w', hyields, -⟩ := exists_of_succeeds (digestCache.compile ⟨"", []⟩
    [⟨"", ["a.avsc"]⟩] (writesModule "a.py")) (.onDisk freshDisk) (fun _ _ => true)
    (by decide +kernel)
  obtain ⟨_, _, _, _, _, -, -, -, -, -, hlater⟩ := hmiss htrue paths w' hyields
  obtain ⟨-, hfalse, hnot, -⟩ := hlater w' w'.disk.now rfl
  exact ⟨paths, w', hyields, hiff.mpr htrue, hfalse, hnot⟩

/-! ### Inputs that upset the cache -/

/-- A disk with a cache whose one record, that of the working directory, has the given text. -/
def recordedDisk (record : String) (time : Int) : Disk :=
  ⟨.directory [("p", .directory [("c", .directory
      [("00d74baf14ea415c.json", .file (.text record) time)] time)] 5)] 5, ["p"], 7, []⟩

/-- The cache on this disk. -/
def timedCache : Cache := ⟨⟨"", ["c"]⟩, .lastModified⟩

/-- The file of its record. -/
def recordPath : Path := ⟨"", ["c", "00d74baf14ea415c.json"]⟩

theorem entryPath_recorded (record : String) (time : Int) :
    timedCache.entryPath (recordedDisk record time) ⟨"", []⟩ = recordPath := by
  have hkey : (recordedDisk record time).key ⟨"", []⟩ = (recordedDisk "" 0).key ⟨"", []⟩ := rfl
  rw [entryPath_congr hkey]
  decide +kernel

theorem holds_recorded (e : CacheEntry) (time : Int) :
    timedCache.Holds (recordedDisk e.text time) ⟨"", []⟩ e := by
  rw [Holds, entryPath_recorded]
  rfl

theorem outcome_load_recorded (he : e.Storable) (hone : e.inputs.length ≤ 1) {time : Int}
    (hw : w.disk = recordedDisk e.text time) :
    outcome (timedCache.load ⟨"", []⟩) w = (.ok (some e), w) := by
  obtain ⟨e', -, hsame, hload⟩ := outcome_load_of_holds he (hw ▸ holds_recorded e time)
  rwa [hsame.eq_of_length_le_one hone] at hload

/-- **Not every input will do.**  A directory has no digest, so that its compilation is stale and
yet does not get to its action; and the record itself changes when it is stored, so that a
compilation with this input is stale as soon as it is done. -/
theorem compile_odd_inputs :
    (freshDisk.contains ⟨"", ["s"]⟩ = true ∧ digestCache.Absent freshDisk ⟨"", []⟩ ∧
      outcome (digestCache.isStale ⟨"", []⟩ [⟨"", ["s"]⟩]) (.onDisk freshDisk) =
        (.ok true, .onDisk freshDisk) ∧
      ¬ digestCache.Invokes ⟨"", []⟩ [⟨"", ["s"]⟩] (.onDisk freshDisk)) ∧
    ∃ e : CacheEntry, e.Storable ∧ SparesInputs (recordedDisk e.text 5) [recordPath] e ∧
      timedCache.Holds (recordedDisk e.text 5) ⟨"", []⟩ e ∧
      (recordedDisk e.text 5).isFile recordPath = true ∧
      ∃ w', Yields (timedCache.compile ⟨"", []⟩ [recordPath] (pure ⟨[], [], []⟩))
          (.onDisk (recordedDisk e.text 5)) [] w' ∧
        outcome (timedCache.isStale ⟨"", []⟩ [recordPath]) w' = (.ok true, w') := by
  constructor
  · have hload : outcome (digestCache.load ⟨"", []⟩) (.onDisk freshDisk) =
        (.ok none, .onDisk freshDisk) := outcome_load_of_absent absent_fresh
    refine ⟨by decide, absent_fresh, by rw [outcome_isStale hload]; rfl, ?_⟩
    exact not_invokes fun action => outcome_compile hload _ action
  · let e : CacheEntry := .of "/p" .lastModified [] [] []
    let e₁ : CacheEntry := .of "/p" .lastModified [("/p/c/00d74baf14ea415c.json", .int 5)] [] []
    have he : e.Storable := ⟨_, _, _, _, rfl, nodup_nil, forall_mem_nil _⟩
    have he₁ : e₁.Storable :=
      ⟨_, _, _, _, rfl, by decide, forall_mem_singleton.mpr (.time natAbs_five_lt)⟩
    refine ⟨e, he, fun _ _ _ => not_mem_nil.elim, holds_recorded e 5, rfl, ?_⟩
    let w : World := .onDisk (recordedDisk e.text 5)
    let v : World := announced ⟨"", []⟩ .otherInputs w
    have hmiss : outcome (timedCache.compile ⟨"", []⟩ [recordPath] (pure ⟨[], [], []⟩)) w =
        outcome (pure ⟨[], [], []⟩ >>= timedCache.record ⟨"", []⟩ (some e) e₁.inputs) v :=
      outcome_compile_of_miss (outcome_load_recorded he (by decide) rfl) rfl rfl _
    -- the record is stored over itself, with the time at which it was last stored
    have hstored : ∃ w', Yields (timedCache.store e₁) v () w' ∧
        w'.disk = recordedDisk e₁.text 7 := by
      have hpath : timedCache.entryPath v.disk (.ofString "/p") = recordPath :=
        (entryPath_congr rfl).trans (entryPath_recorded e.text 5)
      have hreplace : v.disk.replaceFile recordPath e₁.text = .ok (recordedDisk e₁.text 7) := rfl
      have hstore : outcome (timedCache.store e₁) v = _ := outcome_store rfl v
      rw [hpath, hreplace] at hstore
      exact ⟨_, hstore, rfl⟩
    obtain ⟨w', hstore, hw'⟩ := hstored
    have hrecord : Yields (timedCache.record ⟨"", []⟩ (some e) e₁.inputs ⟨[], [], []⟩) v [] w' := by
      rw [record, yields_currentDisk_bind, yields_bind]
      refine ⟨(), v, rfl, ?_⟩
      rw [yields_currentDisk_bind, yields_bind]
      exact ⟨(), w', hstore, yields_pure.mpr ⟨rfl, rfl⟩⟩
    refine ⟨w', hmiss.trans (yields_bind.mpr ⟨_, v, yields_pure.mpr ⟨rfl, rfl⟩, hrecord⟩), ?_⟩
    rw [outcome_isStale (outcome_load_recorded he₁ (by decide) hw'), hw']
    rfl

end Cache

end Avroc
