import Avroc.Proofs.Cache.Record

/-!
# Records on the disk

Where the record of a source directory is kept, and what loading and storing it do.

* `Cache.outcome_load_of_absent`, `Cache.outcome_load_of_holds` : **what is loaded is what is
  held.**
* `Cache.yields_store` : **what is stored is held**, and the rest of the disk is kept.
-/

namespace Avroc

open List

/-! ### Records -/

/-- The record has texts for its paths, and for each input one stamp. -/
def CacheEntry.Storable (e : CacheEntry) : Prop :=
  ∃ source stamps outputs written, e = .of source e.strategy stamps outputs written ∧
    (stamps.map (·.1)).Nodup ∧ ∀ x ∈ stamps, IsStamp x.2

/-- The records hold the same, the inputs in any order. -/
structure CacheEntry.Same (e e' : CacheEntry) : Prop where
  sourceDir : e.sourceDir = e'.sourceDir
  strategy : e.strategy = e'.strategy
  inputs : e.inputs.Perm e'.inputs
  outputs : e.outputs = e'.outputs
  written : e.written = e'.written

/-- With at most one input there is only one order. -/
theorem CacheEntry.Same.eq_of_length_le_one {e e' : CacheEntry} (h : e.Same e')
    (hone : e'.inputs.length ≤ 1) : e = e' := by
  have hinputs : e.inputs = e'.inputs := by
    have hperm := h.inputs
    match hi : e'.inputs, hone with
    | [], _ => rw [hi] at hperm; exact hperm.eq_nil
    | [x], _ => rw [hi] at hperm; exact perm_singleton.mp hperm
  cases e
  cases e'
  rw [CacheEntry.mk.injEq]
  exact ⟨h.sourceDir, h.strategy, hinputs, h.outputs, h.written⟩

namespace Cache

variable {cache : Cache} {d d' : Disk} {source : Path} {e : CacheEntry} {w w' : World}

/-! ### The file of a record -/

theorem slash_notMem_hex (width n : Nat) : '/' ∉ Text.hex width n := by
  have hdigit : ∀ d < 16, Nat.digitChar d ≠ '/' := by decide
  have hdigits : '/' ∉ Nat.toDigits 16 n := by
    induction n using Nat.strongRecOn with
    | ind n ih =>
      rw [Nat.toDigits_eq_if (by decide)]
      split
      · rename_i hlt
        exact fun hm => hdigit n hlt (mem_singleton.mp hm).symm
      · rw [mem_append, not_or]
        exact ⟨ih _ (by omega), fun hm => hdigit _ (by omega) (mem_singleton.mp hm).symm⟩
  simp [Text.hex, hdigits]

/-- The record of a directory is a file of the cache. -/
theorem exists_entryPath (cache : Cache) (d : Disk) (source : Path) : ∃ name, ProperName name ∧
    (∃ stem, name = String.ofList (stem ++ ".json".toList)) ∧
    cache.entryPath d source = ⟨cache.directory.root, cache.directory.parts ++ [name]⟩ := by
  let stem := (Digest.sha256Hex (Text.encodeUtf8 (d.key source))).toList.take 16
  have hne : ∀ name : String, name.toList.length < 5 →
      String.ofList (stem ++ ".json".toList) ≠ name := by
    rintro name hlength rfl
    rw [String.toList_ofList, length_append] at hlength
    exact absurd hlength (by simp)
  refine ⟨_, ⟨hne "" (by decide), hne "." (by decide), hne ".." (by decide), ?_⟩, ⟨stem, rfl⟩, ?_⟩
  · rw [String.toList_ofList, mem_append, not_or]
    refine ⟨fun hm => ?_, by decide⟩
    have hdigest := mem_of_mem_take hm
    rw [Digest.sha256Hex, String.toList_ofList, mem_flatMap] at hdigest
    obtain ⟨word, -, hword⟩ := hdigest
    exact slash_notMem_hex 8 _ hword
  · rw [String.ofList_append]
    rfl

theorem getLast?_entryPath (cache : Cache) (d : Disk) (source : Path) : ∃ name, name ≠ ".." ∧
    (cache.entryPath d source).parts.getLast? = some name := by
  obtain ⟨name, ⟨-, -, hname, -⟩, -, hpath⟩ := cache.exists_entryPath d source
  exact ⟨name, hname, by rw [hpath, getLast?_concat]⟩

/-- The file of a record depends only on the absolute path of the source directory. -/
theorem entryPath_congr {source' : Path} (h : d'.key source' = d.key source) :
    cache.entryPath d' source' = cache.entryPath d source := by
  rw [entryPath, entryPath, h]

/-- The place of the record of a source directory. -/
def entryPlace (cache : Cache) (d : Disk) (source : Path) : List String :=
  (d.resolve (cache.entryPath d source)).parts

theorem entryPath_of_working (h : d'.working = d.working) :
    cache.entryPath d' source = cache.entryPath d source :=
  entryPath_congr (by rw [Disk.key, Disk.key, Disk.resolve, Disk.resolve, h])

theorem entryPlace_of_working (h : d'.working = d.working) :
    cache.entryPlace d' source = cache.entryPlace d source := by
  rw [entryPlace, entryPlace, entryPath_of_working h, Disk.resolve, Disk.resolve, h]

/-- There is no record of the source directory. -/
def Absent (cache : Cache) (d : Disk) (source : Path) : Prop :=
  d.contains (cache.entryPath d source) = false

/-- The file of the record of the source directory holds the given record. -/
def Holds (cache : Cache) (d : Disk) (source : Path) (e : CacheEntry) : Prop :=
  d.readContent (cache.entryPath d source) = .ok (.text e.text)

/-! ### Loading -/

theorem outcome_load (cache : Cache) (source : Path) (w : World) : outcome (cache.load source) w =
    if w.disk.contains (cache.entryPath w.disk source) then
      match readEntry w.disk (cache.entryPath w.disk source) with
      | .ok entry => (.ok entry, w)
      | .error e =>
        if isIgnored e then
          (.ok none, { w with log := w.log ++
            [⟨.cache, .warning, "Ignoring unreadable cache entry " ++
            (cache.entryPath w.disk source).text ++ ": " ++ e.message⟩] })
        else (.error e, w)
    else (.ok none, w) := by
  rw [load, outcome_currentDisk_bind]
  dsimp only
  split
  · cases readEntry w.disk (cache.entryPath w.disk source) with
    | ok entry => rfl
    | error e =>
      dsimp only
      split <;> rfl
  · rfl

theorem outcome_load_of_absent (h : cache.Absent w.disk source) :
    outcome (cache.load source) w = (.ok none, w) := by
  rw [outcome_load, h]
  rfl

/-- **What is loaded is what is held.** -/
theorem outcome_load_of_holds (he : e.Storable) (h : cache.Holds w.disk source e) :
    ∃ e', e'.Storable ∧ e'.Same e ∧ outcome (cache.load source) w = (.ok (some e'), w) := by
  obtain ⟨text, stamps, outputs, written, heq, hkeys, hstamps⟩ := he
  rw [Holds, heq] at h
  obtain ⟨stamps', hperm, hread⟩ := readEntry_text hkeys hstamps h
  have hkeys' : (stamps'.map (·.1)).Nodup := (hperm.map _).nodup_iff.mpr hkeys
  refine ⟨.of text e.strategy stamps' outputs written,
    ⟨text, stamps', outputs, written, rfl, hkeys', fun x hx => hstamps x (hperm.mem_iff.mp hx)⟩,
    ?_, ?_⟩
  · rw [heq]
    exact ⟨rfl, rfl, hperm.map _, rfl, rfl⟩
  · obtain ⟨place, time, hl, hk⟩ := Disk.readContent_eq_ok.mp h
    have hc : w.disk.contains (cache.entryPath w.disk source) = true :=
      Disk.contains_eq_true.mpr ⟨place, hl, by rw [hk]; rfl⟩
    rw [outcome_load, hc, hread]
    rfl

/-! ### Storing -/

/-- Storing replaces the file of the record. -/
theorem outcome_store {text : String} (he : e.sourceDir = .string text) (w : World) :
    outcome (cache.store e) w =
      match w.disk.replaceFile (cache.entryPath w.disk (.ofString text)) e.text with
      | .ok disk => (.ok (), { w with
          disk
          log := w.log ++ [⟨.cache, .debug,
            "Stored cache entry " ++ (cache.entryPath w.disk (.ofString text)).text⟩] })
      | .error fault => (.error (.file (.unwritableEntry fault)
          (some (cache.entryPath w.disk (.ofString text)))), w) := by
  rw [store, outcome_currentDisk_bind, he, outcome_bind, outcome_liftM, pathOf]
  dsimp only
  cases w.disk.replaceFile (cache.entryPath w.disk (.ofString text)) e.text with
  | ok disk => rfl
  | error fault => rfl

/-- **What is stored is held**, and the rest of the disk is kept. -/
theorem yields_store (hworking : ∀ name ∈ w.disk.working, ProperName name)
    (hsource : source.Spelled) (he : e.sourceDir = .string (w.disk.key source)) {u : Unit}
    (h : Yields (cache.store e) w u w') : ∃ place,
      w'.disk.locate (cache.entryPath w.disk source) = .ok place ∧
      w.disk.KeptIn (· = place) w'.disk ∧ cache.Holds w'.disk source e ∧
      w' = { w with disk := w'.disk, log := w'.log } := by
  have hkey : w.disk.key (.ofString (w.disk.key source)) = w.disk.key source :=
    congrArg Path.text (Disk.resolve_resolve hworking hsource)
  rw [Yields, outcome_store he, entryPath_congr hkey] at h
  cases hr : w.disk.replaceFile (cache.entryPath w.disk source) e.text with
  | error fault => rw [hr] at h; cases h
  | ok d' =>
    rw [hr] at h
    cases h
    obtain ⟨name, hname, hlast⟩ := cache.getLast?_entryPath w.disk source
    obtain ⟨parent, hl, hkept, time, hfile⟩ := Disk.replaceFile_spec hlast hname hr
    have hsame : d'.key source = w.disk.key source := congrArg Path.text (hkept.resolve source)
    refine ⟨parent ++ [name], hl, hkept, ?_, rfl⟩
    rw [Holds, entryPath_congr hsame]
    exact Disk.readContent_eq_ok.mpr ⟨_, time, hl, hfile⟩

end Cache

end Avroc
