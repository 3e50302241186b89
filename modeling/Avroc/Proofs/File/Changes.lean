import Avroc.Build.World
import Avroc.Proofs.File.Names
import Avroc.Proofs.Step

/-!
# Disks that change

Builds put files in place, make the directories above them, and remove files.  Nothing else
changes.

* `Disk.changedAt_replaceFile`, `Disk.changedAt_removeFile` : **the changes that builds make.**
-/

namespace Avroc

open List

variable {d d' : Disk} {place q : List String} {path : Path} {now : Int} {n : Node}
  {touched : List String → Prop} {name : String} {α : Type}

/-! ### Trees with one node erased -/

theorem Node.lookup_filter_ne (name key : String) (entries : List (String × Node)) :
    (entries.filter (·.1 ≠ name)).lookup key =
      if key = name then none else entries.lookup key := by
  induction entries with
  | nil => simp
  | cons e entries ih =>
    rw [filter_cons]
    by_cases he : e.1 = name
    · rw [if_neg (by simpa using he), ih, lookup_cons_ite, he]
      split <;> rfl
    · rw [if_pos (by simpa using he), lookup_cons_ite, lookup_cons_ite, ih]
      by_cases hk : key = e.1
      · rw [if_pos hk, if_pos hk, if_neg (hk ▸ he)]
      · rw [if_neg hk, if_neg hk]

/-- Away from the place that is erased everything stays. -/
theorem Node.kind?_erase_of_not_prefix (h : ¬ place <+: q) :
    (Node.erase now n place).kind? q = n.kind? q := by
  induction place generalizing n q with
  | nil => exact absurd nil_prefix h
  | cons name place ih =>
    cases n with
    | file content time => rfl
    | directory entries time =>
      rw [Node.erase]
      cases hl : entries.lookup name with
      | none => rfl
      | some child =>
        dsimp only
        cases q with
        | nil => split <;> rfl
        | cons key q =>
          by_cases hk : key = name
          · subst hk
            have hq : ¬ place <+: q := fun hp => h (cons_prefix_cons.mpr ⟨rfl, hp⟩)
            rw [if_neg (by rintro he; exact hq (List.isEmpty_iff.mp he ▸ nil_prefix))]
            simpa [Node.entries, lookup_setEntry, hl] using ih hq
          · split
            · rw [kind?_cons, kind?_cons, Node.entries, lookup_filter_ne, if_neg hk]
              rfl
            · simp [Node.entries, lookup_setEntry, hk]

/-- Nothing is at a place that is erased. -/
theorem Node.kind?_erase_self (h : place ≠ []) :
    (Node.erase now n place).kind? place = none := by
  induction place generalizing n with
  | nil => exact absurd rfl h
  | cons name place ih =>
    cases n with
    | file content time => rfl
    | directory entries time =>
      rw [Node.erase]
      cases hl : entries.lookup name with
      | none => simp [Node.entries, hl]
      | some child =>
        dsimp only
        split
        · rw [kind?_cons, Node.entries, lookup_filter_ne, if_pos rfl]
          rfl
        · rename_i hne
          have hplace : place ≠ [] := fun he => hne (List.isEmpty_iff.mpr he)
          simpa [Node.entries, lookup_setEntry] using ih hplace

namespace Disk

/-! ### Changes at some places -/

/-- From the first disk to the second, files have come, gone or changed only at the places
`touched`, and directories have been made only above them. -/
structure ChangedAt (touched : List String → Prop) (d d' : Disk) : Prop where
  working : d'.working = d.working
  named : d.WellNamed → d'.WellNamed
  directory : ∀ place, d.root.kind? place = some .directory →
    d'.root.kind? place = some .directory
  made : ∀ place, d'.root.kind? place = some .directory →
    d.root.kind? place = some .directory ∨ ∃ goal, touched goal ∧ place <+: goal.dropLast
  same : ∀ place content time, ¬ touched place →
    (d'.root.kind? place = some (.file content time) ↔
      d.root.kind? place = some (.file content time))

namespace ChangedAt

variable {d d₁ d' : Disk}

theorem refl (touched : List String → Prop) (d : Disk) : d.ChangedAt touched d :=
  ⟨rfl, id, fun _ h => h, fun _ h => .inl h, fun _ _ _ _ => Iff.rfl⟩

theorem trans (h : d.ChangedAt touched d₁) (h' : d₁.ChangedAt touched d') :
    d.ChangedAt touched d' where
  working := h'.working.trans h.working
  named hd := h'.named (h.named hd)
  directory place hp := h'.directory place (h.directory place hp)
  made place hp := (h'.made place hp).elim (h.made place) .inr
  same place content time hp :=
    (h'.same place content time hp).trans (h.same place content time hp)

theorem resolve (h : d.ChangedAt touched d') (path : Path) : d'.resolve path = d.resolve path := by
  rw [Disk.resolve, Disk.resolve, h.working]

end ChangedAt

/-! ### Directories that are made -/

theorem kind?_set_directory {time : Int}
    (h : (Node.set d.now (.directory [] time) d.root place).kind? q = some .directory) :
    d.root.kind? q = some .directory ∨ q = place := by
  by_cases hq : place <+: q
  · obtain ⟨rest, rfl⟩ := hq
    have hset : (Node.set d.now (.directory [] time) d.root place).kind? (place ++ rest) =
          (Node.directory [] time).kind? rest ∨
        (Node.set d.now (.directory [] time) d.root place).kind? (place ++ rest) =
          d.root.kind? (place ++ rest) := Node.kind?_set_append d.root place rest
    rcases hset with hs | hs
    · cases rest with
      | nil => exact .inr (append_nil _)
      | cons name rest =>
        rw [hs] at h
        cases h
    · exact .inl (hs ▸ h)
  · rw [Node.kind?_set_of_not_prefix hq] at h
    exact .inl h

theorem Made.changedAt (hp : path.Plain) {goal : List String} (hgoal : touched goal)
    (habove : (d.resolve path).parts <+: goal.dropLast) (h : Made path d d') :
    d.ChangedAt touched d' := by
  induction h with
  | refl => exact .refl _ _
  | @step d₁ d' way _ hroot hparts hmake ih =>
    refine ih.trans ?_
    have hway : way.Plain := ⟨hroot ▸ hp.root, fun name hm => hp.parts name (hparts.mem hm)⟩
    have hkept := keptIn_makeDirectory hmake
    refine ⟨hkept.working, fun hd => hd.makeDirectory hway hmake, hkept.directory, fun q hq => ?_,
      fun q content time _ => hkept.same q content time id⟩
    obtain ⟨place, hplace, -, rfl⟩ := makeDirectory_eq_ok.mp hmake
    refine (kind?_set_directory hq).imp_right fun he => ⟨goal, hgoal, ?_⟩
    have hprefix : (d₁.resolve way).parts <+: (d.resolve path).parts := by
      rw [ih.resolve, resolve_of_plain hway, resolve_of_plain hp, start, start, Path.isAbsolute,
        Path.isAbsolute, hroot]
      exact prefix_append_right_inj _ |>.mpr hparts
    rw [he, eq_resolve_of_place hplace]
    exact hprefix.trans habove

/-! ### Files that are put in place and removed -/

/-- The directory of a plain path has the place above it. -/
theorem resolve_parent (hp : path.Plain) (hne : path.parts ≠ []) :
    (d.resolve path.parent).parts = (d.resolve path).parts.dropLast := by
  rw [resolve_of_plain hp, resolve_of_plain hp.parent, dropLast_append_of_ne_nil hne]
  rfl

theorem changedAt_writeFile {content : Content} (hp : path.Plain)
    (hlast : path.parts.getLast? = some name) (h : d.writeFile path content = .ok d') :
    d.ChangedAt (· = (d.resolve path).parts) d' := by
  have hname : name ≠ ".." := (hp.parts name (mem_of_getLast? hlast)).2.2.1
  obtain ⟨parent, -, -, hl, hkept, hfile, hother⟩ := writeFile_spec hlast hname h
  have hplace : parent ++ [name] = (d.resolve path).parts := by
    rw [eq_resolve_of_locate hl, hkept.resolve]
  rw [hplace] at hkept hfile hother
  refine ⟨hkept.working, fun hd => hd.writeFile hp h, hkept.directory, fun q hq => .inl ?_,
    hkept.same⟩
  by_cases he : q = (d.resolve path).parts
  · rw [he, hfile] at hq
    cases hq
  · rw [← hother q he, hq]

/-- **A file that is replaced**, with the directories above it. -/
theorem changedAt_replaceFile {content : String} (hp : path.Plain)
    (hlast : path.parts.getLast? = some name) (h : d.replaceFile path content = .ok d') :
    d.ChangedAt (· = (d.resolve path).parts) d' := by
  have hname : name ≠ ".." := (hp.parts name (mem_of_getLast? hlast)).2.2.1
  have hne : path.parts ≠ [] := fun he => by rw [he] at hlast; cases hlast
  obtain ⟨d₁, d₂, hm, hw, h⟩ := replaceFile_eq_ok.mp h
  have hmade : d.ChangedAt (· = (d.resolve path).parts) d₁ :=
    Made.changedAt hp.parent rfl (resolve_parent hp hne ▸ prefix_refl _)
      (made_makeDirectoriesIn hm)
  have hwrite := changedAt_writeFile hp hlast hw
  obtain ⟨parent, hl, hdir, -, hkept, -, -⟩ := writeFile_spec hlast hname hw
  have htime := kind?_setTime (hkept.locate hl) (hkept.directory _ hdir) h
  rw [hmade.resolve] at hwrite
  refine (hmade.trans hwrite).trans ⟨working_setTime h, fun hd => hd.setTime hp.parent h,
    fun q hq => (htime q).trans hq, fun q hq => .inl ((htime q).symm.trans hq), ?_⟩
  intro q content age _
  rw [htime]

/-- What is left when a file is erased. -/
theorem kind?_erase_file {place q : List String} (hno : d.root.kind? place ≠ some .directory)
    (hne : place ≠ []) (hq : q ≠ place) :
    (d.root.erase d.now place).kind? q = d.root.kind? q := by
  by_cases hpre : place <+: q
  · obtain ⟨rest, rfl⟩ := hpre
    have hrest : rest ≠ [] := fun hr => hq (by rw [hr, append_nil])
    have hself : (d.root.erase d.now place).kind? place = none := Node.kind?_erase_self hne
    rw [Node.kind?_below hno hrest, Node.kind?_below (by rw [hself]; simp) hrest]
  · exact Node.kind?_erase_of_not_prefix hpre

/-- **A file that is removed.** -/
theorem changedAt_removeFile (hne : (d.resolve path).parts ≠ []) (h : d.removeFile path = .ok d') :
    d.ChangedAt (· = (d.resolve path).parts) d' ∧
      d'.root.kind? (d.resolve path).parts = none ∧
      ∀ q, q ≠ (d.resolve path).parts → d'.root.kind? q = d.root.kind? q := by
  have hnamed : d.WellNamed → d'.WellNamed := fun hd => hd.removeFile h
  rw [removeFile] at h
  split at h
  · cases h
  · rename_i place hl
    obtain rfl := eq_resolve_of_locate hl
    generalize (d.resolve path).parts = place at *
    split at h
    · cases h
    · rename_i hfile
      cases h
      have hno : d.root.kind? place ≠ some .directory := by
        intro hk
        obtain ⟨entries, time, hn⟩ := at?_of_directory hk
        exact hfile entries time hn
      have hself : (d.root.erase d.now place).kind? place = none := Node.kind?_erase_self hne
      have hother : ∀ q, q ≠ place → (d.root.erase d.now place).kind? q = d.root.kind? q :=
        fun q => kind?_erase_file hno hne
      refine ⟨⟨rfl, hnamed, fun q hq => ?_, fun q hq => .inl ?_, fun q content age hq => ?_⟩, hself,
        hother⟩
      · exact (hother q fun he => hno (he ▸ hq)).trans hq
      · refine (hother q ?_).symm.trans hq
        rintro rfl
        rw [hself] at hq
        cases hq
      · show Node.kind? _ q = _ ↔ _
        rw [hother q hq]

end Disk

/-! ### Steps on the disk -/

theorem outcome_currentDisk_bind (f : Disk → Build α) (w : World) :
    outcome (currentDisk >>= f) w = outcome (f w.disk) w :=
  rfl

theorem yields_currentDisk_bind {f : Disk → Build α} {a : α} {w w' : World} :
    Yields (currentDisk >>= f) w a w' ↔ Yields (f w.disk) w a w' :=
  Iff.rfl

theorem outcome_changeDisk (change : Disk → Except DiskFault Disk) (w : World) :
    outcome (changeDisk change) w =
      match change w.disk with
      | .ok disk => (.ok (), { w with disk })
      | .error fault => (.error (.disk fault), w) := by
  rw [changeDisk, outcome_currentDisk_bind]
  cases change w.disk <;> rfl

end Avroc
