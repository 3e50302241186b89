import Avroc.Idl.Protocol
import Avroc.Proofs.File.Writing
import Avroc.Proofs.Schema.ParallelRead

/-!
# Schema files

What reading a schema file does to a state, and what it depends on.

* `Comparison.Tied.paired_readSchemaFile` : **every file is read side by side in two states.**
-/

namespace Avroc

variable {d d' : Disk} {e : Error} {path : Path} {s t : Scope} {α : Type} {r : Except Error Schema}
  {type : Schema}

/-- The JSON value that a source file holds. -/
def Disk.document? (d : Disk) (path : Path) : Option Json :=
  match d.readSource path with
  | .ok text => (loadJson text).toOption
  | .error _ => none

/-- The file defines a type of the full name. -/
def Disk.Defines (d : Disk) (path : Path) (fullName : String) : Prop :=
  ∃ v, d.document? path = some v ∧ Occurs v .root (.definition fullName)

/-- The file refers to the name, written inside the namespace. -/
def Disk.Refers (d : Disk) (path : Path) (name : String) (space : Option String) : Prop :=
  ∃ v, d.document? path = some v ∧ Occurs v .root (.reference name space)

/-! ### Two states -/

theorem outcome_inFile (path : Path) (x : Reading α) (s : Scope) :
    outcome (Idl.inFile path x) s = match outcome x s with
      | (.ok a, t) => (.ok a, t)
      | (.error e, t) => (.error (e.withPath path), t) := by
  rw [Idl.inFile, outcome_tryCatch]
  rcases outcome x s with ⟨e | a, t⟩ <;> rfl

theorem Error.withPath_withPath (path : Path) (e : Error) :
    (e.withPath path).withPath path = e.withPath path := by
  cases e <;> rfl

theorem Error.isReported_withPath (path : Path) (e : Error) :
    (e.withPath path).isReported = e.isReported := by
  cases e <;> rfl

theorem Error.OfDocument.withPath (h : e.OfDocument path) : (e.withPath path).OfDocument path := by
  intro hr
  rw [withPath_withPath]
  exact h (isReported_withPath path e ▸ hr)

theorem ofDocument_loadJson {text : String} (h : loadJson text = .error e) (path : Path) :
    e.OfDocument path := by
  unfold loadJson at h
  split at h
  · cases h
  · cases h
    exact Error.ofDocument_parse _ _ _ _
  · cases h
    exact fun hr => nomatch hr

theorem ofDocument_readSource (h : d.readSource path = .error e) :
    e.path? = some path ∧ e.OfDocument path := by
  unfold Disk.readSource at h
  split at h
  · cases h
  · cases h
    exact ⟨rfl, fun _ => rfl⟩

namespace Comparison

variable {k : Comparison} {ρ : Matching} {s s' : Scope}

/-- The two states are tied at the start. -/
theorem tied_start (ha : Agree ρ k.first k.second)
    (hown : ∀ name, k.own name →
      k.first.registry.contains name = k.second.registry.contains name)
    (hforth : k.forth → ∀ name, k.first.registry.contains name = true →
      k.second.registry.contains name = true)
    (hback : k.back → ∀ name, k.second.registry.contains name = true →
      k.first.registry.contains name = true) : k.Tied ρ k.first k.second where
  adds := .refl
  adds' := .refl
  agree := ha
  fresh a b _ _ hab _ hle := absurd hle (Nat.not_le.mpr (ha.range a b hab).1)
  since a b hab := iff_of_false (Nat.not_le.mpr (ha.range a b hab).1)
    (Nat.not_le.mpr (ha.range a b hab).2)
  same := hown
  forth := hforth
  back := hback

theorem Paired.inFile {β : Type} {A : Matching → α → β → Prop} {x : Reading α} {x' : Reading β}
    (h : k.Paired ρ A (outcome x s) (outcome x' s')) :
    k.Paired ρ A (outcome (Idl.inFile k.path x) s) (outcome (Idl.inFile k.path x') s') := by
  rw [outcome_inFile, outcome_inFile]
  generalize outcome x s = r at h
  generalize outcome x' s' = r' at h
  cases h with
  | both hσ ht ha => exact .both hσ ht ha
  | fail he =>
    refine .fail fun hforth hback => ?_
    obtain ⟨rfl, hdoc, hadds⟩ := he hforth hback
    exact ⟨rfl, hdoc.withPath, hadds⟩
  | left hn => exact .left hn
  | right hn => exact .right hn

/-- **Every file is read side by side.** -/
theorem Tied.paired_readSchemaFile (h : k.Tied ρ s s') (d : Disk)
    (hfine : ∀ v, d.document? k.path = some v → ∀ o, Occurs v .root o → k.Fine o) :
    k.Paired ρ Schema.Alike (outcome (Idl.readSchemaFile d k.path) s)
      (outcome (Idl.readSchemaFile d k.path) s') := by
  unfold Idl.readSchemaFile
  rw [Disk.document?] at hfine
  cases ht : d.readSource k.path with
  | error e => exact h.paired_throw (ofDocument_readSource ht).2
  | ok text =>
    rw [ht] at hfine
    dsimp only at hfine
    suffices hread : k.Paired ρ Schema.Alike (outcome (readSchemaText text) s)
        (outcome (readSchemaText text) s') from hread.inFile
    unfold readSchemaText
    cases hj : loadJson text with
    | error e => exact h.paired_throw (ofDocument_loadJson hj k.path)
    | ok v =>
      rw [hj] at hfine
      exact h.paired_readSchema (hfine v rfl)

end Comparison

/-! ### One state -/

/-- A file is read side by side with itself: what it adds, and what its errors are like. -/
theorem self_readSchemaFile (hs : s.Solid) (h : outcome (Idl.readSchemaFile d path) s = (r, t)) :
    s.Adds (d.Defines path) t ∧ ∀ e, r = .error e → e.OfDocument path := by
  have htied := Comparison.tied_start (k := ⟨path, s, s, d.Defines path, True, True⟩)
    (Agree.of_kept hs (.refl s)) (fun _ _ => rfl) (fun _ _ hn => hn) (fun _ _ hn => hn)
  have hp := htied.paired_readSchemaFile d fun v hv o ho => by
    cases o with
    | definition fullName => exact ⟨v, hv, ho⟩
    | reference name space => exact .inl ⟨trivial, trivial⟩
  change Comparison.Paired _ _ _ (outcome (Idl.readSchemaFile d path) s)
    (outcome (Idl.readSchemaFile d path) s) at hp
  rw [h] at hp
  cases hp with
  | both _ ht _ => exact ⟨ht.adds, fun e he => nomatch he⟩
  | fail he =>
    obtain ⟨-, hdoc, hadds, -⟩ := he trivial trivial
    exact ⟨hadds, fun e he => Except.error.inj he ▸ hdoc⟩

/-- Reading a file adds names that the file defines, whether it succeeds or not. -/
theorem adds_readSchemaFile (hs : s.Solid) (h : outcome (Idl.readSchemaFile d path) s = (r, t)) :
    s.Adds (d.Defines path) t :=
  (self_readSchemaFile hs h).1

/-- An error of a file that is reported names the file. -/
theorem path?_of_readSchemaFile (hs : s.Solid)
    (h : outcome (Idl.readSchemaFile d path) s = (.error e, t)) (hr : e.isReported = true) :
    e.path? = some path := by
  have hdoc := (self_readSchemaFile hs h).2 e rfl
  unfold Idl.readSchemaFile at h
  cases ht : d.readSource path with
  | error e' =>
    rw [ht] at h
    cases h
    exact (ofDocument_readSource ht).1
  | ok text =>
    rw [ht] at h
    change outcome (Idl.inFile path (readSchemaText text)) s = _ at h
    rw [outcome_inFile] at h
    split at h
    · cases h
    · cases h
      have hpath := hdoc hr
      rwa [Error.withPath_withPath] at hpath

/-! ### Disks -/

theorem readSchemaFile_congr (h : d'.readContent path = d.readContent path) :
    Idl.readSchemaFile d' path = Idl.readSchemaFile d path := by
  unfold Idl.readSchemaFile
  rw [Disk.readSource_congr h]

/-- A file that can be read has a content. -/
theorem exists_content_of_readSchemaFile (h : Yields (Idl.readSchemaFile d path) s type t) :
    ∃ c, d.readContent path = .ok c := by
  unfold Idl.readSchemaFile at h
  cases hc : d.readContent path with
  | ok c => exact ⟨c, rfl⟩
  | error fault =>
    have hsource : d.readSource path =
        .error (.file (.unreadableSource (.disk fault)) (some path)) := by
      rw [Disk.readSource, Disk.readText, Disk.readExact, hc]
      rfl
    rw [hsource] at h
    cases h

/-- A file that can be read can be read on a later disk, if it is not touched. -/
theorem Disk.KeptIn.yields_readSchemaFile {touched : List String → Prop} (h : d.KeptIn touched d')
    (hpath : ∀ place, d.locate path = .ok place → ¬ touched place)
    (hy : Yields (Idl.readSchemaFile d path) s type t) :
    Yields (Idl.readSchemaFile d' path) s type t := by
  obtain ⟨c, hc⟩ := exists_content_of_readSchemaFile hy
  obtain ⟨place, time, hl, -⟩ := Disk.readContent_eq_ok.mp hc
  rwa [readSchemaFile_congr ((h.readContent hl (hpath place hl) hc).trans hc.symm)]

end Avroc
