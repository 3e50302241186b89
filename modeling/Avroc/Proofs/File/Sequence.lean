import Avroc.Proofs.File.Contents

/-!
# Modules that are written one after the other

Any modules, to any paths: several may go to one place, the disk may be in the way of some, and the
system may fail at any step.  The first that cannot be written ends the run, and leaves what the
modules before it have made.

* `outcome_writeModulesIn_cases` : **what becomes of all.**
-/

namespace Avroc

open List

variable {d d₁ d' : Disk} {path target : Path} {file : SourceFile} {files : List SourceFile}
  {w : World} {weather : Weather}

/-! ### One module -/

/-- What can be read is what could be read before. -/
theorem Disk.Abandoned.readContent {content : Content} (h : d.Abandoned weather path d')
    {other : Path} (hr : d.readContent other = .ok content) :
    d'.readContent other = .ok content := by
  obtain ⟨place, time, hl, hk⟩ := readContent_eq_ok.mp hr
  rcases h with hkept | ⟨-, directory, staged, -, hnone, -, hkept⟩
  · exact hkept.readContent hl id hr
  · refine hkept.readContent hl (fun he => ?_) hr
    rw [he, hnone] at hk
    cases hk

/-- The file that was to be replaced is as before, or still not there. -/
theorem Disk.Abandoned.contentAt (h : d.Abandoned weather path d') :
    d'.contentAt (d.resolve path).parts = d.contentAt (d.resolve path).parts := by
  have hsame : ∀ content time, d'.root.kind? (d.resolve path).parts = some (.file content time) ↔
      d.root.kind? (d.resolve path).parts = some (.file content time) := by
    intro content time
    rcases h with hkept | ⟨-, directory, staged, -, -, hne, hkept⟩
    · exact hkept.same _ _ _ id
    · exact hkept.same _ _ _ hne.symm
  refine Option.ext fun content => ?_
  rw [contentAt_eq_some, contentAt_eq_some]
  exact exists_congr fun time => hsame content time

/-- **One module** is written, or a fault of files is in its way. -/
theorem outcome_writeModule_cases (weather : Weather)
    (hreadable : ∀ content, w.disk.contentAt (w.disk.placeOf target file) = some content →
      content.shown?.isSome = true) :
    (∃ w', Yields (writeModule target file weather) w (target.join file.path) w' ∧
      Placed (target.join file.path) file.content (w.disk.placeOf target file) w.disk w'.disk) ∨
    ∃ fault w', outcome (writeModule target file weather) w =
      (.error (.file (.unwritableModule fault) (some (target.join file.path))), w') ∧
      w.disk.Abandoned weather (target.join file.path) w'.disk := by
  have hends := ends_writeModule target file weather w
  rcases h : outcome (writeModule target file weather) w with ⟨e | written, w'⟩
  · right
    rcases hends.of_error h with ⟨hn, rfl⟩ | ⟨⟨fault, rfl⟩, -, habandoned⟩
    · cases hr : w'.disk.readContent (target.join file.path) with
      | error fault =>
        rw [needsWriting, Disk.readText, Disk.readExact, hr] at hn
        split at hn <;> cases hn
        exact ⟨fault, w', rfl, .inl (.refl _ _)⟩
      | ok content =>
        obtain ⟨place, time, hl, hk⟩ := Disk.readContent_eq_ok.mp hr
        rw [Disk.eq_resolve_of_locate hl] at hk
        obtain ⟨needed, hneeds⟩ := (needsWriting_of_readContent hr file.content).mp
          (hreadable content (Disk.contentAt_eq_some.mpr ⟨time, hk⟩))
        rw [hneeds] at hn
        cases hn
    · exact ⟨fault, w', rfl, habandoned⟩
  · obtain ⟨rfl, -, -, place, hplaced⟩ := hends.of_ok h
    exact .inl ⟨w', h, hplaced.place_eq ▸ hplaced⟩

/-! ### Several modules -/

/-- The modules have been written in turn.  Each path reads as the last module that goes to its
place, and no other file has come, gone or changed. -/
structure Written (target : Path) (files : List SourceFile) (d d' : Disk) : Prop where
  kept : d.KeptIn (fun place => ∃ file ∈ files, place = d.placeOf target file) d'
  text : ∀ front last back, files = front ++ last :: back →
    (∀ later ∈ back, d.placeOf target later ≠ d.placeOf target last) →
    ∀ file ∈ files, d.placeOf target file = d.placeOf target last →
      d'.readText (target.join file.path) =
        .ok (String.ofList (Text.unifyNewlines last.content.toList))

theorem Written.nil : Written target [] d d :=
  ⟨.refl _ _, by simp⟩

theorem Written.cons
    (hp : Placed (target.join file.path) file.content (d.placeOf target file) d d₁)
    (h : Written target files d₁ d') : Written target (file :: files) d d' := by
  have hsame : ∀ g, d₁.placeOf target g = d.placeOf target g := hp.kept.placeOf
  have hkept := h.kept
  have htext := h.text
  simp only [hsame] at hkept htext
  refine ⟨(hp.kept.mono ?_).trans (hkept.mono ?_), fun front last back hsplit hlater g hg heq => ?_⟩
  · rintro _ rfl
    exact ⟨file, mem_cons_self, rfl⟩
  · rintro _ ⟨g, hg, rfl⟩
    exact ⟨g, mem_cons_of_mem _ hg, rfl⟩
  · cases front with
    | nil =>
      cases hsplit
      rcases mem_cons.mp hg with rfl | hg
      · obtain ⟨c, time, hk, hc⟩ := hp.content
        refine hc.readText_eq (hkept.readContent hp.locate ?_
          (Disk.readContent_eq_ok.mpr ⟨_, time, hp.locate, hk⟩))
        rintro ⟨other, ho, he⟩
        exact hlater other ho he.symm
      · exact absurd heq (hlater g hg)
    | cons f front =>
      cases hsplit
      have hlast := htext front last back rfl hlater
      rcases mem_cons.mp hg with rfl | hg
      · -- the first path leads to the place of a later module
        obtain ⟨c, hr, hs⟩ := Disk.readText_eq_ok.mp (hlast last (by simp) rfl)
        obtain ⟨place, time, hl, hk⟩ := Disk.readContent_eq_ok.mp hr
        rw [Disk.eq_resolve_of_locate hl, hkept.resolve, hp.kept.resolve] at hk
        exact Disk.readText_eq_ok.mpr
          ⟨c, Disk.readContent_eq_ok.mpr ⟨_, time, hkept.locate hp.locate, heq ▸ hk⟩, hs⟩
      · exact hlast g hg heq

/-- A module that is written can be read by the modules after it. -/
theorem Placed.readable {place place' : List String} {content : Content}
    (hp : Placed path file.content place d d₁)
    (h : ∀ content, d.contentAt place' = some content → content.shown?.isSome = true)
    (hc : d₁.contentAt place' = some content) : content.shown?.isSome = true := by
  obtain ⟨time, hk⟩ := Disk.contentAt_eq_some.mp hc
  by_cases he : place' = place
  · obtain ⟨c, time', hk', hgets⟩ := hp.content
    rw [he, hk'] at hk
    cases hk
    rcases hgets with ⟨-, hs⟩ | ⟨rfl, -⟩
    · rw [Content.shows_iff.mp hs]
      rfl
    · rfl
  · exact h content (Disk.contentAt_eq_some.mpr ⟨time, (hp.kept.same _ _ _ he).mp hk⟩)

/-- **What becomes of all**, whatever faults of the system are met.  Either every module is written,
or one is not: then those before it are written, its own place is as it was, and all that can be
read reads as before. -/
theorem outcome_writeModulesIn_cases (target : Path) (files : List (SourceFile × Weather))
    (w : World)
    (hreadable : ∀ file ∈ files, ∀ content,
      w.disk.contentAt (w.disk.placeOf target file.1) = some content →
        content.shown?.isSome = true) :
    (∃ w', Yields (writeModulesIn target files) w
        (files.map fun file => target.join file.1.path) w' ∧
      Written target (files.map (·.1)) w.disk w'.disk) ∨
    ∃ front file weather back fault w₁ w', files = front ++ (file, weather) :: back ∧
      outcome (writeModulesIn target files) w =
        (.error (.file (.unwritableModule fault) (some (target.join file.path))), w') ∧
      Yields (writeModulesIn target front) w
        (front.map fun file => target.join file.1.path) w₁ ∧
      Written target (front.map (·.1)) w.disk w₁.disk ∧
      w₁.disk.Abandoned weather (target.join file.path) w'.disk ∧
      w'.disk.contentAt (w₁.disk.placeOf target file) =
        w₁.disk.contentAt (w₁.disk.placeOf target file) ∧
      ∀ path content, w₁.disk.readContent path = .ok content →
        w'.disk.readContent path = .ok content := by
  induction files generalizing w with
  | nil => exact .inl ⟨w, rfl, .nil⟩
  | cons head files ih =>
    obtain ⟨file, weather⟩ := head
    rw [forall_mem_cons] at hreadable
    rcases outcome_writeModule_cases weather hreadable.1 with
      ⟨w₁, hfirst, hplaced⟩ | ⟨fault, w', hfirst, habandoned⟩
    · rcases ih w₁ fun g hg content hc => hplaced.readable (hreadable.2 g hg)
          (by rwa [hplaced.kept.placeOf] at hc) with
        ⟨w', hrest, hwritten⟩ |
        ⟨front, bad, weather', back, fault, w₂, w', rfl, hstop, hrest, hwritten, hleft⟩
      · exact .inl ⟨w', hfirst.bind (hrest.bind .pure), hwritten.cons hplaced⟩
      · refine .inr ⟨(file, weather) :: front, bad, weather', back, fault, w₂, w', rfl, ?_,
          hfirst.bind (hrest.bind .pure), hwritten.cons hplaced, hleft⟩
        rw [writeModulesIn, outcome_bind, hfirst]
        dsimp only
        rw [outcome_bind, hstop]
    · refine .inr ⟨[], file, weather, files, fault, w, w', rfl, ?_, rfl, .nil, habandoned,
        habandoned.contentAt, fun _ _ => habandoned.readContent⟩
      rw [writeModulesIn, outcome_bind, hfirst]

/-- A disk with one module. -/
def placedDisk : Disk :=
  ⟨.directory [("w", .directory [("a.py", .file (.text "1") 0)] 0)] 0, ["w"], 0, []⟩

/-- The system can neither move a staged text into place nor remove it. -/
def Weather.frozen : Weather :=
  ⟨fun stage => if stage = .moving ∨ stage = .clearing then some (.at .taken "a.py") else none, id⟩

theorem outcome_writeModulesIn_cases_repeated :
    (let again : List (SourceFile × Weather) := [(⟨⟨"", ["a.py"]⟩, "1\n"⟩, .calm),
      (⟨⟨"", ["b", "..", "a.py"]⟩, "2\r\n"⟩, .calm)]
    let w := World.onDisk (.withWorking ["w"] 0)
    (∀ file ∈ again, w.disk.placeOf ⟨"", ["out"]⟩ file.1 = ["w", "out", "a.py"]) ∧
      ∃ w', Yields (writeModulesIn ⟨"", ["out"]⟩ again) w
          [⟨"", ["out", "a.py"]⟩, ⟨"", ["out", "b", "..", "a.py"]⟩] w' ∧
        w'.disk.readText ⟨"", ["out", "a.py"]⟩ = .ok "2\n") ∧
    ∃ fault w', outcome (writeModulesIn ⟨"", []⟩ [(⟨⟨"", ["a.py"]⟩, "2"⟩, .frozen)])
        (.onDisk placedDisk) =
        (.error (.file (.unwritableModule fault) (some ⟨"", ["a.py"]⟩)), w') ∧
      w'.disk.readContent ⟨"", ["a.py"]⟩ = .ok (.text "1") := by
  constructor
  · intro again w
    have hplace : ∀ file ∈ again, w.disk.placeOf ⟨"", ["out"]⟩ file.1 = ["w", "out", "a.py"] := by
      decide
    have hruns : succeeds (writeModulesIn ⟨"", ["out"]⟩ again) w (fun _ _ => true) = true := by
      decide +kernel
    obtain ⟨_, _, hruns, -⟩ := exists_of_succeeds _ _ _ hruns
    rcases outcome_writeModulesIn_cases ⟨"", ["out"]⟩ again w
        (fun file hf content hc => by rw [hplace file hf] at hc; cases hc) with
      ⟨w', hw, hwritten⟩ | ⟨_, _, _, _, _, _, _, _, hstop, _⟩
    · exact ⟨hplace, w', hw, hwritten.text [_] _ [] rfl (forall_mem_nil _) _ mem_cons_self rfl⟩
    · rw [Yields, hstop] at hruns
      cases hruns
  · have hfails : succeeds (writeModulesIn ⟨"", []⟩ [(⟨⟨"", ["a.py"]⟩, "2"⟩, .frozen)])
        (.onDisk placedDisk) (fun _ _ => true) = false := by
      decide +kernel
    rcases outcome_writeModulesIn_cases ⟨"", []⟩ [(⟨⟨"", ["a.py"]⟩, "2"⟩, .frozen)]
        (.onDisk placedDisk) (forall_mem_singleton.mpr fun content hc => by cases hc; rfl) with
      ⟨w', hw, -⟩ | ⟨front, file, weather, back, fault, w₁, w', hsplit, hstop, hfront,
        -, -, -, hread⟩
    · rw [succeeds, hw] at hfails
      cases hfails
    · rcases append_eq_singleton_iff.mp hsplit.symm with ⟨rfl, heq⟩ | ⟨-, heq⟩ <;> cases heq
      obtain ⟨-, rfl⟩ := yields_pure.mp hfront
      exact ⟨fault, w', hstop, hread _ _ rfl⟩

end Avroc
