import Avroc.Proofs.File.Changes

/-!
# Files that are replaced by way of another

A text is written next to the file that it replaces, and then moved over it.  The system may fail at
each step.

* `Disk.Staged.moveFile_iff` : **moving the staged text is replacing the file in one step.**
* `ends_replaceFile` : **what a replacement does**, in any weather.
* `yields_replaceFile_calm` : while the system does not fail, it is the replacement in one step.
-/

namespace Avroc

open List

/-! ### Trees -/

namespace Node

variable {now : Int} {n m new other : Node} {p q : List String} {name : String}

/-- What is at a place that starts with a name. -/
theorem at?_cons_eq_some : n.at? (name :: p) = some m ↔ ∃ entries time child,
    n = .directory entries time ∧ entries.lookup name = some child ∧ child.at? p = some m := by
  cases n with
  | file content time => simp [at?, Node.entries]
  | directory entries time => cases hl : entries.lookup name <;> simp [at?, Node.entries, hl]

theorem set_append (h : n.at? p = some m) :
    set now new n (p ++ q) = set now (set now new m q) n p := by
  induction p generalizing n with
  | nil => cases h; rfl
  | cons name p ih =>
    obtain ⟨entries, time, child, rfl, hl, h⟩ := at?_cons_eq_some.mp h
    simp only [cons_append, set, hl, ih h]

theorem erase_append (h : n.at? p = some m) :
    erase now n (p ++ [name]) = set now (erase now m [name]) n p := by
  induction p generalizing n with
  | nil => cases h; rfl
  | cons part p ih =>
    obtain ⟨entries, time, child, rfl, hl, h⟩ := at?_cons_eq_some.mp h
    simp [set, erase, hl, ih h]

theorem at?_set (h : n.at? p = some m) : (set now new n p).at? p = some new := by
  induction p generalizing n with
  | nil => rfl
  | cons name p ih =>
    obtain ⟨entries, time, child, rfl, hl, h⟩ := at?_cons_eq_some.mp h
    simp [set, hl, at?, Node.entries, lookup_setEntry, ih h]

theorem set_set (h : n.at? p = some m) :
    set now new (set now other n p) p = set now new n p := by
  induction p generalizing n with
  | nil => rfl
  | cons name p ih =>
    obtain ⟨entries, time, child, rfl, hl, h⟩ := at?_cons_eq_some.mp h
    simp [set, hl, lookup_putKey, ih h, setEntry_eq_putKey, putKey_putKey]

/-- A file that comes to a directory under a new name and goes to another name there. -/
theorem set_erase_staged {entries : List (String × Node)} {time : Int} {staged : String}
    (hfresh : ∀ e ∈ entries, e.1 ≠ staged) :
    set now new (erase now (set now new (.directory entries time) [staged]) [staged]) [name] =
      (set now new (.directory entries time) [name]).withTime now := by
  have hnone : entries.lookup staged = none :=
    lookup_eq_none_iff.mpr fun e he => by simpa using Ne.symm (hfresh e he)
  have herase : erase now (set now new (.directory entries time) [staged]) [staged] =
      .directory entries now := by
    simpa [set, erase, hnone, lookup_append] using fun name node => hfresh (name, node)
  rw [herase]
  cases hl : entries.lookup name <;> simp [set, hl, withTime]

end Node

/-! ### Disks -/

namespace Disk

variable {d d₁ d₂ d' : Disk} {path : Path} {name staged : String} {parent place : List String}
  {content : Content}

theorem le_foldl_max (lengths : List Nat) (n : Nat) :
    n ≤ lengths.foldl max n ∧ ∀ m ∈ lengths, m ≤ lengths.foldl max n := by
  induction lengths generalizing n with
  | nil => simp
  | cons k lengths ih =>
    obtain ⟨hmax, hall⟩ := ih (max n k)
    rw [foldl_cons, forall_mem_cons]
    exact ⟨by omega, by omega, hall⟩

/-- A name for a staged text: it has the extension of such names, and is longer than the name of
the file. -/
structure StagingName (path : Path) (staged : String) : Prop where
  suffix : ∃ stem, staged = stem ++ ".tmp"
  longer : path.name.length < staged.length

theorem StagingName.ne_dots (h : StagingName path staged) : staged ≠ ".." := by
  obtain ⟨stem, rfl⟩ := h.suffix
  intro he
  have hlength := congrArg String.length he
  rw [String.length_append] at hlength
  have htmp : ".tmp".length = 4 := rfl
  have hdots : "..".length = 2 := rfl
  omega

/-- The staged text has a name that is new in the directory of the file. -/
theorem exists_stagingPath (d : Disk) (path : Path) : ∃ staged,
    (d.stagingPath path).parts.getLast? = some staged ∧ StagingName path staged ∧
      (d.stagingPath path).parent = path.parent ∧
      ∀ {parent : List String} {entries : List (String × Node)} {time : Int},
        d.locate path.parent = .ok parent → d.root.at? parent = some (.directory entries time) →
          ∀ e ∈ entries, e.1 ≠ staged := by
  have htmp : ".tmp".length = 4 := rfl
  refine ⟨_, getLast?_concat, ⟨⟨_, rfl⟩, ?_⟩, ?_, fun hl hat e he h => ?_⟩
  · simp only [String.length_append, String.length_ofList, length_replicate, htmp]
    have hle := (le_foldl_max ((d.beside path).map (·.1.length)) path.name.length).1
    omega
  · exact congrArg (Path.mk path.root) dropLast_concat
  · have hlength := congrArg String.length h
    simp only [String.length_append, String.length_ofList, length_replicate,
      beside, node_eq_ok.mpr ⟨_, hl, hat⟩, Node.entries] at hlength
    have hle := (le_foldl_max (List.map (·.1.length) _) path.name.length).2 _ (mem_map_of_mem he)
    omega

theorem moveFile_eq_ok {source target : Path} : d.moveFile source target = .ok d' ↔
    ∃ old new node, d.locate source = .ok old ∧ d.place target = .ok new ∧
      d.root.kind? new ≠ some .directory ∧ d.root.at? old = some node ∧
      { d with root := Node.set d.now node (d.root.erase d.now old) new } = d' := by
  rw [moveFile]
  cases d.locate source with
  | error problem => simp
  | ok old =>
    cases d.place target with
    | error problem => simp
    | ok new =>
      cases hn : d.root.at? old <;> rcases ht : d.root.at? new with _ | ⟨_, _⟩ | ⟨_, _⟩ <;>
        simp [Node.kind?, Node.kind, hn, ht]

/-- A path that does not end in a name leads to a directory, if its parent does. -/
theorem directory_of_dots (hdots : ∀ name ∈ path.parts.getLast?, name = "..")
    (hl : d.locate path.parent = .ok parent) (hdir : d.root.kind? parent = some .directory)
    (h : d.locate path = .ok place) : d.root.kind? place = some .directory := by
  rcases eq_nil_or_concat' path.parts with hnil | ⟨front, name, hparts⟩
  · have hsame : d.locate path.parent = d.locate path := by
      rw [locate, locate, Path.parent, hnil]
      rfl
    cases hl.symm.trans (hsame.trans h)
    exact hdir
  · rw [locate, hparts, follow_append_eq_ok] at h
    obtain ⟨middle, hfront, hlast⟩ := h
    have hmiddle : d.locate path.parent = .ok middle := by
      rw [locate, Path.parent, hparts, dropLast_concat]
      exact hfront
    cases hl.symm.trans hmiddle
    rcases (follow_cons_eq_ok.mp hlast).2 with ⟨-, hf⟩ | ⟨hname, -, -⟩
    · cases hf
      rcases eq_nil_or_concat' parent with rfl | ⟨above, _, rfl⟩
      · exact hdir
      · rw [dropLast_concat]
        exact Node.kind?_above (cons_ne_nil _ _) (by rw [hdir]; rfl)
    · exact absurd (hdots name (by simp [hparts])) hname

/-- The text has been staged: it stands on the second disk in the directory of the file, under a
name that is new there. -/
structure Staged (d : Disk) (path : Path) (content : Content) (directory : List String)
    (staged : String) (d₂ : Disk) : Prop where
  name : StagingName path staged
  parent : d.locate path.parent = .ok directory
  listing : ∃ entries time, d.root.at? directory = some (.directory entries time) ∧
    ∀ e ∈ entries, e.1 ≠ staged
  eq : d₂ = { d with root := Node.set d.now (.file content d.now) d.root (directory ++ [staged]) }
  locate : d₂.locate (d.stagingPath path) = .ok (directory ++ [staged])
  kept : d.KeptIn (· = directory ++ [staged]) d₂

theorem exists_staged (h : d.writeFile (d.stagingPath path) content = .ok d₂) :
    ∃ directory staged, Staged d path content directory staged d₂ := by
  obtain ⟨staged, hlast, hname, hparent, hfresh⟩ := d.exists_stagingPath path
  obtain ⟨directory, hl, hdir, hl₂, hkept, -, -⟩ := writeFile_spec hlast hname.ne_dots h
  obtain ⟨_, hplace, -, rfl⟩ := writeFile_eq_ok.mp h
  obtain ⟨_, hl', -, rfl⟩ := (place_eq_ok hlast hname.ne_dots).mp hplace
  cases hl.symm.trans hl'
  obtain ⟨entries, time, hat⟩ := at?_of_directory hdir
  rw [hparent] at hl
  exact ⟨_, staged, hname, hl, ⟨entries, time, hat, hfresh hl hat⟩, rfl, hl₂, hkept⟩

theorem exists_writeFile_staging (hl : d.locate path.parent = .ok place)
    (hdir : d.root.kind? place = some .directory) (content : Content) :
    ∃ d₂, d.writeFile (d.stagingPath path) content = .ok d₂ := by
  obtain ⟨staged, hlast, hname, hparent, hfresh⟩ := d.exists_stagingPath path
  obtain ⟨entries, time, hat⟩ := at?_of_directory hdir
  refine ⟨_, writeFile_eq_ok.mpr ⟨_, (place_eq_ok hlast hname.ne_dots).mpr
    ⟨place, hparent ▸ hl, hdir, rfl⟩, ?_, rfl⟩⟩
  have hnone : entries.lookup staged = none :=
    lookup_eq_none_iff.mpr fun e he => bne_iff_ne.mpr (hfresh hl hat e he).symm
  rw [Node.kind?_append, hat]
  simp [Node.entries, hnone]

namespace Staged

variable {directory : List String} {text : String}

section
variable (h : Staged d path content directory staged d₂)
include h

theorem isDirectory : d.root.kind? directory = some .directory := by
  obtain ⟨entries, time, hat, -⟩ := h.listing
  rw [Node.kind?, hat]
  rfl

/-- Nothing was there before. -/
theorem kind?_eq_none : d.root.kind? (directory ++ [staged]) = none := by
  obtain ⟨entries, time, hat, hfresh⟩ := h.listing
  have hnone : entries.lookup staged = none :=
    lookup_eq_none_iff.mpr fun e he => bne_iff_ne.mpr (hfresh e he).symm
  rw [Node.kind?_append, hat]
  simp [Node.entries, hnone]

theorem at? : d₂.root.at? (directory ++ [staged]) = some (.file content d.now) := by
  rw [h.eq]
  exact Node.at?_set_self staged h.isDirectory

/-- A staged text can be removed, and leaves no trace. -/
theorem removeFile : ∃ d', d₂.removeFile (d.stagingPath path) = .ok d' ∧
    d.KeptIn (fun _ => False) d' := by
  have hkind : d₂.root.kind? (directory ++ [staged]) = some (.file content d.now) := by
    rw [Node.kind?, h.at?]
    rfl
  refine ⟨{ d₂ with root := d₂.root.erase d₂.now (directory ++ [staged]) }, ?_, ?_⟩
  · simp [Disk.removeFile, h.locate, h.at?]
  · refine keptIn_of_kind? h.kept.working fun q => ?_
    by_cases hq : q = directory ++ [staged]
    · rw [hq, h.kind?_eq_none]
      exact Node.kind?_erase_self (by simp)
    · refine (kind?_erase_file (by simp [hkind]) (by simp) hq).trans ?_
      rw [h.eq]
      exact kind?_set_file (by simp [h.kind?_eq_none]) hq _ _

/-- The path of the file does not lead to the staged text. -/
theorem ne_place : directory ++ [staged] ≠ (d.resolve path).parts := by
  have hresolve : (d.resolve path).parts = Path.climb path.parts (d.start path) := rfl
  have hparent : directory = Path.climb path.parts.dropLast (d.start path) :=
    eq_resolve_of_locate h.parent
  intro he
  rw [hresolve] at he
  rcases eq_nil_or_concat' path.parts with hnil | ⟨front, name, hparts⟩
  · rw [hnil] at he hparent
    have hlength := congrArg length he
    rw [hparent] at hlength
    simp [Path.climb] at hlength
  · rw [hparts, dropLast_concat] at hparent
    rw [hparts, Path.climb, foldl_append, foldl_cons, foldl_nil, ← Path.climb, ← hparent] at he
    split at he
    · have hlength := congrArg length he
      simp at hlength
      omega
    · have hlonger := h.name.longer
      rw [Path.name, hparts, getLast?_concat] at hlonger
      cases append_cancel_left he
      exact absurd hlonger (Nat.lt_irrefl _)

end

/-- **Moving the staged text over a file is replacing the file in one step.** -/
theorem moveFile_iff (h : Staged d path (.text text) directory staged d₂) :
    d₂.moveFile (d.stagingPath path) path = .ok d' ↔
      (∃ name, path.parts.getLast? = some name ∧ name ≠ "..") ∧
        ∃ d₁, d.writeFile path (.text text) = .ok d₁ ∧ d₁.setTime path.parent d₁.now = .ok d' := by
  have hdir := h.isDirectory
  have hl₂ := h.kept.locate h.parent
  have hold := h.at?
  obtain ⟨entries, time, hat, hfresh⟩ := h.listing
  obtain rfl := h.eq
  -- both ways put the same directory in place of that of the file
  have hroot : ∀ name : String,
      Node.set d.now (.file (.text text) d.now)
          ((Node.set d.now (.file (.text text) d.now) d.root (directory ++ [staged])).erase d.now
            (directory ++ [staged])) (directory ++ [name]) =
        Node.set d.now
          ((Node.set d.now (.file (.text text) d.now)
            (.directory entries time) [name]).withTime d.now)
          (Node.set d.now (.file (.text text) d.now) d.root (directory ++ [name])) directory := by
    intro name
    rw [Node.set_append hat, Node.erase_append (Node.at?_set hat), Node.set_set hat,
      Node.set_append (Node.at?_set hat), Node.set_set hat, Node.set_erase_staged hfresh,
      Node.set_append hat, Node.set_set hat]
  rw [moveFile_eq_ok]
  constructor
  · rintro ⟨_, new, node, hsource, htarget, hno, hnode, rfl⟩
    cases h.locate.symm.trans hsource
    cases hold.symm.trans hnode
    rcases place_cases path with ⟨name, hname, hne⟩ | ⟨hdots', hsame⟩
    · obtain ⟨_, hp, -, rfl⟩ := (place_eq_ok hname hne).mp htarget
      cases hl₂.symm.trans hp
      have hno' : d.root.kind? (directory ++ [name]) ≠ some .directory :=
        fun hk => hno (h.kept.directory _ hk)
      refine ⟨⟨name, hname, hne⟩, _, writeFile_eq_ok.mpr
        ⟨_, (place_eq_ok hname hne).mpr ⟨_, h.parent, hdir, rfl⟩, hno', rfl⟩, ?_⟩
      have hnew : (Node.set d.now (.file (.text text) d.now) d.root (directory ++ [name])).at?
          directory = some (Node.set d.now (.file (.text text) d.now) (.directory entries time)
            [name]) := by
        rw [Node.set_append hat, Node.at?_set hat]
      exact setTime_eq_ok.mpr ⟨directory, _, (keptIn_set_file hno' _ _).locate h.parent, hnew,
        congrArg (fun root => { d with root }) (hroot name).symm⟩
    · rw [hsame] at htarget
      exact absurd (directory_of_dots hdots' hl₂ (h.kept.directory _ hdir) htarget) hno
  · rintro ⟨⟨name, hname, hne⟩, d₁, hw₁, ht⟩
    obtain ⟨_, hplace, hno, rfl⟩ := writeFile_eq_ok.mp hw₁
    obtain ⟨_, hp, -, rfl⟩ := (place_eq_ok hname hne).mp hplace
    cases h.parent.symm.trans hp
    obtain ⟨_, node, hp, hn, rfl⟩ := setTime_eq_ok.mp ht
    cases ((keptIn_set_file hno (.text text) d.now).locate h.parent).symm.trans hp
    rw [Node.set_append hat, Node.at?_set hat] at hn
    cases hn
    refine ⟨_, _, _, h.locate, (place_eq_ok hname hne).mpr
      ⟨directory, hl₂, h.kept.directory _ hdir, rfl⟩, fun hk => ?_, hold, ?_⟩
    · by_cases he : directory ++ [name] = directory ++ [staged]
      · rw [he, Node.kind?, hold] at hk
        cases hk
      · exact hno ((kind?_set_file (by simp [h.kind?_eq_none]) he _ _).symm.trans hk)
    · exact congrArg (fun root => { d with root }) (hroot name)

end Staged

/-- What a replacement that fails leaves behind in some weather: directories that it has made, and,
if the system failed to write the staged text or to remove it, the file in which it was staged. -/
def Abandoned (weather : Weather) (path : Path) (d d' : Disk) : Prop :=
  d.KeptIn (fun _ => False) d' ∨
    ((weather.fault? .writing).isSome ∨ (weather.fault? .clearing).isSome) ∧
      ∃ directory staged, StagingName path staged ∧ d.root.kind? (directory ++ [staged]) = none ∧
        directory ++ [staged] ≠ (d.resolve path).parts ∧ d.KeptIn (· = directory ++ [staged]) d'

theorem Staged.abandoned {directory : List String} {weather : Weather}
    (h : Staged d₁ path content directory staged d₂) (hkept : d.KeptIn (fun _ => False) d₁)
    (hw : (weather.fault? .writing).isSome ∨ (weather.fault? .clearing).isSome) :
    Abandoned weather path d d₂ := by
  refine .inr ⟨hw, directory, staged, h.name, ?_, hkept.resolve path ▸ h.ne_place,
    (hkept.mono fun _ => False.elim).trans h.kept⟩
  rw [Option.eq_none_iff_forall_ne_some]
  intro kind hk
  have hsome := hkept.isSome_kind? (by rw [hk]; rfl)
  rw [h.kind?_eq_none] at hsome
  cases hsome

end Disk

/-! ### Steps -/

variable {path staging : Path} {content : String} {weather : Weather} {stage : Stage} {w w' : World}

theorem ends_changeDisk (change : Disk → Except DiskFault Disk) (w : World) :
    Ends (fun _ w' => ∃ disk, change w.disk = .ok disk ∧ w' = { w with disk })
      (fun e w' => w' = w ∧ ∃ fault, e = .disk fault ∧ change w.disk = .error fault)
      (outcome (changeDisk change) w) := by
  rw [outcome_changeDisk]
  cases h : change w.disk with
  | ok disk => exact ⟨fun _ _ => ⟨disk, rfl, rfl⟩, nofun⟩
  | error fault => exact ⟨nofun, fun e he => ⟨rfl, fault, (Except.error.inj he).symm, rfl⟩⟩

theorem Weather.ends_pass (weather : Weather) (stage : Stage) (w : World) :
    Ends (fun _ w' => w' = w ∧ weather.fault? stage = none)
      (fun e w' => w' = w ∧ ∃ fault, e = .disk fault ∧ weather.fault? stage = some fault)
      (outcome (weather.pass stage) w) := by
  rw [Weather.pass]
  cases weather.fault? stage with
  | none => exact ends_pure ⟨rfl, rfl⟩
  | some fault => exact ends_throw ⟨rfl, fault, rfl, rfl⟩

/-- Only the disk has changed, and on it nothing but what a replacement that fails leaves behind. -/
def GivenUp (weather : Weather) (path : Path) (w : World) (e : Error) (w' : World) : Prop :=
  (∃ fault, e = .disk fault) ∧ w' = { w with disk := w'.disk } ∧
    Disk.Abandoned weather path w.disk w'.disk

theorem ends_stageFile (weather : Weather) (path : Path) (content : String) (w : World) :
    Ends (fun staging w' => ∃ d₁ directory staged, w.disk.makeDirectories path.parent = .ok d₁ ∧
        d₁.stagingPath path = staging ∧
        d₁.Staged path (.text content) directory staged w'.disk ∧ w' = { w with disk := w'.disk })
      (GivenUp weather path w) (outcome (stageFile weather path content) w) := by
  rw [stageFile]
  refine Ends.bind ((ends_changeDisk _ w).imp (fun _ _ => id) ?_) ?_
  · rintro _ _ ⟨rfl, fault, rfl, -⟩
    exact ⟨⟨fault, rfl⟩, rfl, .inl (.refl _ _)⟩
  rintro _ _ ⟨d₁, hmake, rfl⟩
  have hkept := Disk.keptIn_makeDirectories hmake
  refine Ends.bind ((weather.ends_pass .staging _).imp (fun _ _ => id) ?_) ?_
  · rintro _ _ ⟨rfl, fault, rfl, -⟩
    exact ⟨⟨fault, rfl⟩, rfl, .inl hkept⟩
  rintro _ _ ⟨rfl, -⟩
  rw [outcome_currentDisk_bind]
  refine Ends.bind ((ends_changeDisk _ _).imp (fun _ _ => id) ?_) ?_
  · rintro _ _ ⟨rfl, fault, rfl, -⟩
    exact ⟨⟨fault, rfl⟩, rfl, .inl hkept⟩
  rintro _ _ ⟨d₂, hwrite, rfl⟩
  obtain ⟨directory, staged, hstaged⟩ := Disk.exists_staged hwrite
  refine Ends.bind ((weather.ends_pass .writing _).imp (fun _ _ => id) ?_) ?_
  · rintro _ _ ⟨rfl, fault, rfl, hfault⟩
    exact ⟨⟨fault, rfl⟩, rfl, hstaged.abandoned hkept (.inl (by rw [hfault]; rfl))⟩
  rintro _ _ ⟨rfl, hcalm⟩
  rw [Weather.reach, hcalm] at hstaged
  exact ends_pure ⟨d₁, directory, staged, hmake, rfl, hstaged, rfl⟩

theorem ends_settleFile (weather : Weather) (staging path : Path) (w : World) :
    Ends (fun _ w' => ∃ disk, w.disk.moveFile staging path = .ok disk ∧ w' = { w with disk })
      (fun e w' => w' = w ∧ ∃ fault, e = .disk fault)
      (outcome (settleFile weather staging path) w) := by
  have hfault : ∀ {P : DiskFault → Prop} (e : Error) (w' : World),
      (w' = w ∧ ∃ fault, e = .disk fault ∧ P fault) → w' = w ∧ ∃ fault, e = .disk fault :=
    fun _ _ h => ⟨h.1, h.2.imp fun _ => And.left⟩
  rw [settleFile]
  refine Ends.bind ((weather.ends_pass .granting w).imp (fun _ _ => id) hfault) ?_
  rintro _ _ ⟨rfl, -⟩
  refine Ends.bind ((weather.ends_pass .moving _).imp (fun _ _ => id) hfault) ?_
  rintro _ _ ⟨rfl, -⟩
  exact (ends_changeDisk _ _).imp (fun _ _ => id) hfault

/-- **What a replacement does**, in any weather.  If it succeeds, the file has been replaced in one
step.  If it fails, the file stays as it is. -/
theorem ends_replaceFile (weather : Weather) (path : Path) (content : String) (w : World) :
    Ends (fun _ w' => (∃ name, path.parts.getLast? = some name ∧ name ≠ "..") ∧
        w.disk.replaceFile path content = .ok w'.disk ∧ w' = { w with disk := w'.disk })
      (GivenUp weather path w) (outcome (replaceFile weather path content) w) := by
  rw [replaceFile]
  refine Ends.bind (ends_stageFile weather path content w) ?_
  rintro staging w₂ ⟨d₁, directory, staged, hmake, rfl, hstaged, hw₂⟩
  have hkept := Disk.keptIn_makeDirectories hmake
  refine Ends.tryCatch ((ends_settleFile weather _ path w₂).imp ?_ fun _ _ => id) ?_
  · rintro _ _ ⟨d', hmove, rfl⟩
    obtain ⟨hname, _, hwrite, htime⟩ := hstaged.moveFile_iff.mp hmove
    refine ⟨hname, Disk.replaceFile_eq_ok.mpr ⟨_, _, hmake, hwrite, htime⟩, ?_⟩
    rw [hw₂]
  · rintro e _ ⟨rfl, hfault⟩
    refine Ends.bind ((weather.ends_pass .clearing _).imp (fun _ _ => id) ?_) ?_
    · rintro _ _ ⟨rfl, fault, rfl, hclearing⟩
      exact ⟨⟨fault, rfl⟩, hw₂, hstaged.abandoned hkept (.inr (by rw [hclearing]; rfl))⟩
    rintro _ _ ⟨rfl, -⟩
    obtain ⟨d', hremove, hsame⟩ := hstaged.removeFile
    refine Ends.bind ((ends_changeDisk _ _).imp (fun _ _ => id) ?_) ?_
    · rintro _ _ ⟨-, fault, -, herror⟩
      rw [hremove] at herror
      cases herror
    rintro _ _ ⟨_, hok, rfl⟩
    cases hremove.symm.trans hok
    refine ends_throw ⟨hfault, ?_, .inl (hkept.trans hsame)⟩
    rw [hw₂]

/-! ### Calm weather -/

theorem yields_changeDisk {change : Disk → Except DiskFault Disk} {disk : Disk}
    (h : change w.disk = .ok disk) : Yields (changeDisk change) w () { w with disk } := by
  rw [Yields, outcome_changeDisk, h]

theorem yields_stageFile_calm {d₁ d₂ : Disk} (hmake : w.disk.makeDirectories path.parent = .ok d₁)
    (hwrite : d₁.writeFile (d₁.stagingPath path) (.text content) = .ok d₂) :
    Yields (stageFile .calm path content) w (d₁.stagingPath path) { w with disk := d₂ } := by
  refine (yields_changeDisk hmake).bind (Yields.bind (a := ()) .pure ?_)
  rw [yields_currentDisk_bind]
  exact (yields_changeDisk hwrite).bind (Yields.bind (a := ()) .pure .pure)

/-- A file that can be replaced in one step can be staged and moved into place. -/
theorem exists_stageFile_calm {d' : Disk} {name : String}
    (hlast : path.parts.getLast? = some name) (hname : name ≠ "..")
    (h : w.disk.replaceFile path content = .ok d') : ∃ staging w₂,
      Yields (stageFile .calm path content) w staging w₂ ∧ w₂ = { w with disk := w₂.disk } ∧
        w₂.disk.moveFile staging path = .ok d' := by
  obtain ⟨d₁, _, hmake, hwrite, htime⟩ := Disk.replaceFile_eq_ok.mp h
  obtain ⟨parent, hl, hdir, -, -, -, -⟩ := Disk.writeFile_spec hlast hname hwrite
  obtain ⟨d₂, hd₂⟩ := Disk.exists_writeFile_staging hl hdir (.text content)
  obtain ⟨directory, staged, hstaged⟩ := Disk.exists_staged hd₂
  exact ⟨_, _, yields_stageFile_calm hmake hd₂, rfl,
    hstaged.moveFile_iff.mpr ⟨⟨name, hlast, hname⟩, _, hwrite, htime⟩⟩

/-- While the system does not fail, a file that can be replaced in one step is replaced. -/
theorem yields_replaceFile_calm {d' : Disk} {name : String}
    (hlast : path.parts.getLast? = some name) (hname : name ≠ "..")
    (h : w.disk.replaceFile path content = .ok d') :
    Yields (replaceFile .calm path content) w () { w with disk := d' } := by
  obtain ⟨staging, w₂, hstage, hw₂, hmove⟩ := exists_stageFile_calm hlast hname h
  refine hstage.bind ?_
  have hsettle : Yields (settleFile .calm staging path) w₂ () { w₂ with disk := d' } :=
    Yields.bind (a := ()) .pure (Yields.bind (a := ()) .pure (yields_changeDisk hmove))
  rw [hw₂] at hsettle
  rw [Yields, outcome_tryCatch, hw₂, hsettle]

end Avroc
