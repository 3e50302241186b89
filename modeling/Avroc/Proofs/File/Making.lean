import Avroc.Proofs.File.Changes

/-!
# Files that can be put in place

A file can be put in place if nothing but directories stands on the way to it, and no directory in
its place.  Where one disk has come from another, and a later one has files in all touched places,
nothing stands in the way of a touched file.

* `Disk.exists_makeDirectoriesIn` : **the directories of a way can be made.**
* `Disk.exists_replaceFile_of_way` : **a file at the end of it can be replaced.**
-/

namespace Avroc.Disk

open List

variable {d d' : Disk} {path : Path} {name : String} {here parts : List String}

theorem not_prefix_above {place : List String} (h : place ≠ []) : ¬ place <+: place.dropLast := by
  intro hpre
  have hlength := hpre.length_le
  have hpos := length_pos_iff.mpr h
  rw [length_dropLast] at hlength
  omega

/-- Nothing but directories stands on the way. -/
def Way (d : Disk) (here parts : List String) : Prop :=
  ∀ front, front <+: parts → d.root.kind? (here ++ front) = none ∨
    d.root.kind? (here ++ front) = some .directory

theorem Way.tail (h : d.Way here (name :: parts)) :
    d.Way (here ++ [name]) parts := by
  intro front hfront
  rw [append_assoc]
  exact h (name :: front) (cons_prefix_cons.mpr ⟨rfl, hfront⟩)

/-- A way on which directories end leads to nothing. -/
theorem follow_missing (hdots : ".." ∉ parts) (hway : d.Way here parts)
    (hhere : d.root.kind? here = some .directory) (hnone : d.root.kind? (here ++ parts) = none) :
    follow d.root here parts = .error .missing := by
  induction parts generalizing here with
  | nil =>
    rw [append_nil, hhere] at hnone
    cases hnone
  | cons part parts ih =>
    rw [mem_cons, not_or] at hdots
    obtain ⟨entries, time, hat⟩ := at?_of_directory hhere
    have hnext : d.root.kind? (here ++ [part]) = (entries.lookup part).map Node.kind := by
      rw [Node.kind?_append, hat]
      cases hl : entries.lookup part <;> simp [Node.entries, hl]
    rw [follow, hat]
    dsimp only
    rw [if_neg (Ne.symm hdots.1)]
    cases hl : entries.lookup part with
    | none => rfl
    | some child =>
      rw [Option.isSome_some, if_pos rfl]
      have hdirectory : d.root.kind? (here ++ [part]) = some .directory := by
        refine (hway [part] (cons_prefix_cons.mpr ⟨rfl, nil_prefix⟩)).resolve_left ?_
        simp [hnext, hl]
      exact ih hdots.2 hway.tail hdirectory (by rwa [append_assoc])

/-! ### Directories -/

section

variable (hp : path.Plain) (hlast : path.parts.getLast? = some name)

include hp hlast

theorem last_ne_dots : name ≠ ".." :=
  (hp.parts name (mem_of_getLast? hlast)).2.2.1

theorem resolve_eq_concat :
    (d.resolve path).parts = (d.resolve path.parent).parts ++ [name] := by
  have hparts : path.parts = path.parts.dropLast ++ [name] :=
    (dropLast_append_getLast? name hlast).symm
  rw [resolve_of_plain hp, resolve_of_plain hp.parent, append_assoc]
  exact congrArg (d.start path ++ ·) hparts

theorem place_of_parent
    (hparent : d.root.kind? (d.resolve path.parent).parts = some .directory) :
    d.place path = .ok (d.resolve path).parts := by
  have hl : d.locate path.parent = .ok (d.resolve path.parent).parts :=
    locate_of_kind? hp.parent.dots_notMem (by rw [hparent]; rfl)
  rw [resolve_eq_concat hp hlast]
  exact (place_eq_ok hlast (last_ne_dots hp hlast)).mpr ⟨_, hl, hparent, rfl⟩

/-- A directory can be made in one that is there. -/
theorem exists_makeDirectory
    (hparent : d.root.kind? (d.resolve path.parent).parts = some .directory)
    (hnone : d.root.kind? (d.resolve path).parts = none) :
    ∃ d', d.makeDirectory path = .ok d' ∧
      d'.root.kind? (d.resolve path).parts = some .directory := by
  have hat : d.root.at? (d.resolve path).parts = none := Option.map_eq_none_iff.mp hnone
  refine ⟨_, makeDirectory_eq_ok.mpr ⟨_, place_of_parent hp hlast hparent, hat, rfl⟩, ?_⟩
  rw [resolve_eq_concat hp hlast, Node.kind?, Node.at?_set_self name hparent]
  rfl

end

/-- A directory whose parent is missing cannot be made. -/
theorem makeDirectory_of_missing (hp : path.Plain) (hlast : path.parts.getLast? = some name)
    (hstart : d.root.kind? (d.start path) = some .directory)
    (hway : d.Way (d.start path) path.parts.dropLast)
    (hnone : d.root.kind? (d.resolve path.parent).parts = none) :
    d.makeDirectory path = .error .missing := by
  have hmissing : d.locate path.parent = .error .missing := by
    rw [resolve_of_plain hp.parent] at hnone
    exact follow_missing hp.parent.dots_notMem hway hstart hnone
  have hplace : d.place path = .error .missing := by
    rw [place, hlast]
    split
    · rename_i heq
      cases heq
    · rename_i heq
      cases heq
      exact absurd rfl (last_ne_dots hp hlast)
    · rw [hmissing]
      rfl
  rw [makeDirectory, hplace]
  rfl

/-- Directories that are made leave what is below them. -/
theorem Made.kind?_below {goal : List String} (hp : path.Plain) (h : Made path d d')
    (hbelow : (d.resolve path).parts <+: goal.dropLast) (hne : goal ≠ [])
    (hnone : d.root.kind? goal = none) : d'.root.kind? goal = none := by
  have hchanged : d.ChangedAt (· = goal) d' := h.changedAt hp rfl hbelow
  cases hk : d'.root.kind? goal with
  | none => rfl
  | some kind =>
    cases kind with
    | file content time =>
      rw [(h.keptIn.same goal content time id).mp hk] at hnone
      cases hnone
    | directory =>
      rcases hchanged.made goal hk with hd | ⟨_, rfl, hpre⟩
      · rw [hd] at hnone
        cases hnone
      · exact absurd hpre (not_prefix_above hne)

/-- **The directories of a way can be made.** -/
theorem exists_makeDirectoriesIn (hp : path.Plain) {levels : Nat}
    (hlevels : path.parts.length ≤ levels)
    (hstart : d.root.kind? (d.start path) = some .directory)
    (hway : d.Way (d.start path) path.parts) : ∃ d', makeDirectoriesIn path levels d = .ok d' ∧
      d'.root.kind? (d.resolve path).parts = some .directory := by
  induction levels generalizing path with
  | zero =>
    have hparts : path.parts = [] := length_eq_zero_iff.mp (Nat.le_zero.mp hlevels)
    have hdir : d.root.kind? (d.resolve path).parts = some .directory := by
      rwa [resolve_of_plain hp, hparts, append_nil]
    have hl := locate_of_kind? hp.dots_notMem (d := d) (by rw [hdir]; rfl)
    exact ⟨d, makeDirectoriesIn_of_directory hl hdir 0, hdir⟩
  | succ levels ih =>
    by_cases hdir : d.root.kind? (d.resolve path).parts = some .directory
    · have hl := locate_of_kind? hp.dots_notMem (d := d) (by rw [hdir]; rfl)
      exact ⟨d, makeDirectoriesIn_of_directory hl hdir _, hdir⟩
    have hplace : (d.resolve path).parts = d.start path ++ path.parts := by
      rw [resolve_of_plain hp]
    have hnone : d.root.kind? (d.resolve path).parts = none := by
      rw [hplace] at hdir ⊢
      exact (hway path.parts (prefix_refl _)).resolve_right hdir
    obtain ⟨name, hlast⟩ : ∃ name, path.parts.getLast? = some name := by
      refine Option.ne_none_iff_exists'.mp fun hl => hdir ?_
      rwa [hplace, getLast?_eq_none_iff.mp hl, append_nil]
    have hway' : d.Way (d.start path) path.parts.dropLast :=
      fun front hfront => hway front (hfront.trans (List.dropLast_prefix _))
    rcases hway' path.parent.parts (prefix_refl _) with hparent | hparent
    · -- the directory above is missing too, and is made first
      obtain ⟨d₁, hd₁, hdir₁⟩ := ih hp.parent
        (by rw [Path.parent, length_dropLast]; omega) hstart hway'
      have hmade := made_makeDirectoriesIn hd₁
      have hne : path.parts ≠ [] := fun he => by rw [he] at hlast; cases hlast
      have hnone₁ := hmade.kind?_below hp.parent (resolve_parent hp hne ▸ prefix_refl _)
        (by rw [hplace]; exact append_ne_nil_of_right_ne_nil _ hne) hnone
      rw [← hmade.keptIn.resolve] at hdir₁ hnone₁ ⊢
      obtain ⟨d', hmake, hd'⟩ := exists_makeDirectory hp hlast hdir₁ hnone₁
      refine ⟨d', ?_, hd'⟩
      have hmissing := makeDirectory_of_missing hp hlast hstart hway'
        (by rw [resolve_of_plain hp.parent]; exact hparent)
      rw [makeDirectoriesIn.eq_def]
      dsimp only
      rw [hmissing]
      dsimp only
      rw [hd₁]
      simp only [bind, Except.bind]
      rw [hmake]
    · obtain ⟨d', hmake, hd'⟩ := exists_makeDirectory hp hlast
        (by rw [resolve_of_plain hp.parent]; exact hparent) hnone
      refine ⟨d', ?_, hd'⟩
      rw [makeDirectoriesIn.eq_def]
      dsimp only
      rw [hmake]

/-! ### Files -/

/-- **A file can be replaced** if nothing but directories stands on the way to it, and no directory
in its place. -/
theorem exists_replaceFile_of_way (hp : path.Plain) (hlast : path.parts.getLast? = some name)
    (hstart : d.root.kind? (d.start path) = some .directory)
    (hway : d.Way (d.start path) path.parts.dropLast)
    (hfile : d.root.kind? (d.resolve path).parts ≠ some .directory) (content : String) :
    ∃ d', d.replaceFile path content = .ok d' := by
  obtain ⟨d₁, hd₁, hdir₁⟩ := exists_makeDirectoriesIn hp.parent (Nat.le_refl _) hstart hway
  have hmade := made_makeDirectoriesIn hd₁
  have hne : path.parts ≠ [] := fun he => by rw [he] at hlast; cases hlast
  have hl₁ : d₁.locate path.parent = .ok (d.resolve path.parent).parts := by
    rw [← hmade.keptIn.resolve] at hdir₁ ⊢
    exact locate_of_kind? hp.parent.dots_notMem (by rw [hdir₁]; rfl)
  refine exists_replaceFile_of_made hlast (last_ne_dots hp hlast) hd₁ hl₁ hdir₁ ?_ content
  rw [← resolve_eq_concat hp hlast]
  intro hk
  have hchanged : d.ChangedAt (· = (d.resolve path).parts) d₁ :=
    hmade.changedAt hp.parent rfl (resolve_parent hp hne ▸ prefix_refl _)
  rcases hchanged.made _ hk with hdir | ⟨_, rfl, hpre⟩
  · exact hfile hdir
  · exact not_prefix_above (by rw [resolve_eq_concat hp hlast]; simp) hpre

end Avroc.Disk
