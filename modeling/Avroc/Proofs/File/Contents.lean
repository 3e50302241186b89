import Avroc.Proofs.File.Making
import Avroc.Proofs.File.Modules
import Mathlib.Data.List.Induction

/-!
# Contents of files

What is on a disk apart from times, and what becomes of it when modules are written.

* `contentAt_writeModule`, `exists_writeModule` : **what writing a module does**, and when it can be
  written.
-/

namespace Avroc

variable {content : Content} {d : Disk} {path : Path}

/-- The content of a file. -/
def Kind.content? : Kind → Option Content
  | .file content _ => some content
  | .directory => none

namespace Disk

variable {d d' : Disk} {place : List String} {content : Content} {path : Path}

/-- What is at a place, apart from its time: a directory, or a file with its content. -/
def view (d : Disk) (place : List String) : Option (Option Content) :=
  (d.root.kind? place).map Kind.content?

/-- The content of the file at a place. -/
def contentAt (d : Disk) (place : List String) : Option Content :=
  (d.view place).join

theorem view_eq_file : d.view place = some (some content) ↔
    ∃ time, d.root.kind? place = some (.file content time) := by
  rw [view]
  cases d.root.kind? place with
  | none => simp
  | some kind => cases kind <;> simp [Kind.content?]

theorem contentAt_eq_some : d.contentAt place = some content ↔
    ∃ time, d.root.kind? place = some (.file content time) := by
  rw [contentAt, Option.join_eq_some_iff, view_eq_file]

theorem readContent_iff_contentAt (hp : path.Plain) :
    d.readContent path = .ok content ↔ d.contentAt (d.resolve path).parts = some content := by
  rw [readContent_eq_ok, contentAt_eq_some]
  constructor
  · rintro ⟨place, time, hl, hk⟩
    exact ⟨time, eq_resolve_of_locate hl ▸ hk⟩
  · rintro ⟨time, hk⟩
    exact ⟨_, time, locate_of_kind? hp.dots_notMem (by rw [hk]; rfl), hk⟩

theorem ChangedAt.contentAt {touched : List String → Prop} (h : d.ChangedAt touched d')
    (hp : ¬ touched place) : d'.contentAt place = d.contentAt place := by
  refine Option.ext fun content => ?_
  rw [contentAt_eq_some, contentAt_eq_some]
  exact exists_congr fun time => h.same place content time hp

end Disk

/-! ### Modules over files -/

/-- The text that a content shows, with one spelling of the end of a line. -/
def Content.shown? (content : Content) : Option String :=
  match content.toText with
  | .ok s => some (String.ofList (Text.unifyNewlines s.toList))
  | .error _ => none

theorem Content.shows_iff {text : String} : content.Shows text ↔ content.shown? = some text := by
  rw [Shows, shown?]
  cases content.toText <;> simp

/-- What becomes of a file when a module is written over it. -/
def SourceFile.over (file : SourceFile) : Option Content → Content
  | some old => if old.shown? = some file.content then old else .text file.content
  | none => .text file.content

/-- Whether a module has to be written over a file can only be told if the file can be decoded. -/
theorem needsWriting_of_readContent (h : d.readContent path = .ok content) (text : String) :
    content.shown?.isSome = true ↔ ∃ needed, needsWriting d path text = .ok needed := by
  have hneeds : needsWriting d path text = match content.toText with
      | .ok s => .ok (String.ofList (Text.unifyNewlines s.toList) != text)
      | .error fault => .error (.encoding fault) := by
    rw [needsWriting, if_pos (Disk.contains_of_readContent h), Disk.readText, Disk.readExact, h]
    dsimp only
    cases content.toText <;> rfl
  rw [hneeds, Content.shown?]
  cases content.toText with
  | ok s => exact iff_of_true rfl ⟨_, rfl⟩
  | error fault => exact iff_of_false (by simp) (by rintro ⟨_, hn⟩; cases hn)

section

variable {target : Path} {file : SourceFile} {w : World} {name : String}

/-- **A module that is written** changes the file in its place and nothing else, and could not be
written over a file that cannot be decoded. -/
theorem contentAt_writeModule {w' : World} (hplain : (target.join file.path).Plain)
    (h : Yields (writeModule target file .calm) w path w') :
    path = target.join file.path ∧ w' = { w with disk := w'.disk, log := w'.log } ∧
      w.disk.ChangedAt (· = w.disk.placeOf target file) w'.disk ∧
      w'.disk.contentAt (w.disk.placeOf target file) =
        some (file.over (w.disk.contentAt (w.disk.placeOf target file))) ∧
      ∀ content, w.disk.contentAt (w.disk.placeOf target file) = some content →
        content.shown?.isSome = true := by
  obtain ⟨rfl, hw, hneeds, place, hplaced⟩ := (ends_writeModule target file .calm w).of_ok h
  obtain rfl := hplaced.place_eq
  have hread : ∀ content, w.disk.readContent (target.join file.path) = .ok content ↔
      w.disk.contentAt (w.disk.placeOf target file) = some content :=
    fun content => Disk.readContent_iff_contentAt hplain
  obtain ⟨c, time, hk, hgets⟩ := hplaced.content
  refine ⟨rfl, hw, hplaced.changed hplain, ?_, fun content hc => ?_⟩
  · rw [Disk.contentAt_eq_some.mpr ⟨time, hk⟩]
    rcases hgets with ⟨hold, hshows⟩ | ⟨rfl, hnew⟩
    · rw [(hread c).mp hold, SourceFile.over, if_pos (Content.shows_iff.mp hshows)]
    · cases hold : w.disk.contentAt (w.disk.placeOf target file) with
      | none => rfl
      | some old =>
        rw [SourceFile.over, if_neg]
        exact fun hs => hnew old ((hread old).mpr hold) (Content.shows_iff.mpr hs)
  · exact (needsWriting_of_readContent ((hread content).mpr hc) file.content).mpr hneeds

/-- A module can be written if its file can be replaced, and is none that cannot be decoded. -/
theorem exists_writeModule (hlast : (target.join file.path).parts.getLast? = some name)
    (hname : name ≠ "..")
    (hreplace : w.disk.replaceFile (target.join file.path) file.content = .ok d)
    (hreadable : ∀ content, w.disk.readContent (target.join file.path) = .ok content →
      content.shown?.isSome = true) :
    ∃ w', Yields (writeModule target file .calm) w (target.join file.path) w' := by
  have hneeds : ∃ needed, needsWriting w.disk (target.join file.path) file.content =
      .ok needed := by
    by_cases hcontains : w.disk.contains (target.join file.path) = true
    · -- what is there is a file, since it can be replaced
      obtain ⟨place, hl, hs⟩ := Disk.contains_eq_true.mp hcontains
      obtain ⟨kind, hk⟩ := Option.isSome_iff_exists.mp hs
      cases kind with
      | file content time =>
        have hread := Disk.readContent_eq_ok.mpr ⟨place, time, hl, hk⟩
        exact (needsWriting_of_readContent hread _).mp (hreadable content hread)
      | directory =>
        obtain ⟨parent, hl', hkept, time, hfile⟩ := Disk.replaceFile_spec hlast hname hreplace
        have hdir := hkept.directory place hk
        rw [Except.ok.inj ((hkept.locate hl).symm.trans hl'), hfile] at hdir
        cases hdir
    · exact ⟨true, by rw [needsWriting, if_neg hcontains]⟩
  obtain ⟨needed, hneeds⟩ := hneeds
  rw [writeModule]
  simp only [Yields, outcome_currentDisk_bind, hneeds]
  cases needed with
  | false => exact ⟨w, rfl⟩
  | true =>
    have hyields := yields_replaceFile_calm hlast hname hreplace
    have htell : Yields (tellingFaults (fun fault => .file (.unwritableModule fault)
        (some (target.join file.path))) (replaceFile .calm (target.join file.path) file.content))
        w () { w with disk := d } := by
      rw [Yields, tellingFaults, outcome_tryCatch, hyields]
    exact ⟨_, htell.bind .pure⟩

end

end Avroc
