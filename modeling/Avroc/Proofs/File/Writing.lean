import Avroc.Build.Writing
import Avroc.Proofs.File.Tree

/-!
# Disks that are written to

Writing modules makes directories and puts files in place.  It removes nothing, and of the files
that are there only those at the places of the modules change.

* `Disk.KeptIn.locate`, `Disk.KeptIn.readContent` : paths lead where they led, and to the same
  content.
* `Disk.replaceFile_spec` : a file that is replaced has its new content, and the rest is kept.
-/

namespace Avroc

open List

variable {content : Content} {d d' d₁ : Disk} {time : Int} {here parts place q : List String}
  {root : Node} {path : Path} {name : String}

namespace Disk

/-! ### Following paths -/

theorem follow_cons_eq_ok {rest : List String} {part : String} :
    follow root here (part :: rest) = .ok place ↔
      root.kind? here = some .directory ∧
        (part = ".." ∧ follow root here.dropLast rest = .ok place ∨
          part ≠ ".." ∧ (root.kind? (here ++ [part])).isSome ∧
            follow root (here ++ [part]) rest = .ok place) := by
  rw [follow, Node.kind?_append, Node.kind?]
  cases root.at? here with
  | none => simp
  | some node =>
    cases node with
    | file content time => simp [Node.kind]
    | directory entries time =>
      by_cases hp : part = ".."
      · simp [Node.kind, hp]
      · cases hl : entries.lookup part with
        | none => simp [Node.kind, Node.entries, hp, hl]
        | some child => simp [Node.kind, Node.entries, hp, hl]

theorem follow_append_eq_ok {p : List String} :
    follow root here (p ++ q) = .ok place ↔
      ∃ middle, follow root here p = .ok middle ∧ follow root middle q = .ok place := by
  induction p generalizing here with
  | nil => simp [follow]
  | cons part p ih =>
    simp only [cons_append, follow_cons_eq_ok, ih]
    constructor
    · rintro ⟨hd, ⟨hp, middle, h, h'⟩ | ⟨hp, hs, middle, h, h'⟩⟩
      · exact ⟨middle, ⟨hd, .inl ⟨hp, h⟩⟩, h'⟩
      · exact ⟨middle, ⟨hd, .inr ⟨hp, hs, h⟩⟩, h'⟩
    · rintro ⟨middle, ⟨hd, ⟨hp, h⟩ | ⟨hp, hs, h⟩⟩, h'⟩
      · exact ⟨hd, .inl ⟨hp, middle, h, h'⟩⟩
      · exact ⟨hd, .inr ⟨hp, hs, middle, h, h'⟩⟩

/-- The place that names lead to can be told from the names alone. -/
theorem climb_of_follow (h : follow root here parts = .ok place) :
    place = Path.climb parts here := by
  induction parts generalizing here with
  | nil => exact (Except.ok.inj h).symm
  | cons part parts ih =>
    rw [Path.climb, foldl_cons]
    rcases (follow_cons_eq_ok.mp h).2 with ⟨hp, h⟩ | ⟨hp, -, h⟩
    · rw [if_pos hp]
      exact ih h
    · rw [if_neg hp]
      exact ih h

theorem resolve_eq_of_parts {p q : Path} (h : (d.resolve p).parts = (d.resolve q).parts) :
    d.resolve p = d.resolve q :=
  congrArg (Path.mk "/") h

/-- The place that a path leads to can be told from the path. -/
theorem eq_resolve_of_locate (h : d.locate path = .ok place) : place = (d.resolve path).parts :=
  climb_of_follow h

/-- Names without double dots lead to whatever stands below a place. -/
theorem follow_of_kind? (hdots : ".." ∉ parts) (h : (root.kind? (here ++ parts)).isSome = true) :
    follow root here parts = .ok (here ++ parts) := by
  induction parts generalizing here with
  | nil => rw [append_nil]; rfl
  | cons part parts ih =>
    rw [mem_cons, not_or] at hdots
    have hhere := Node.kind?_above (cons_ne_nil _ _) h
    rw [append_cons] at h ⊢
    refine follow_cons_eq_ok.mpr ⟨hhere, .inr ⟨Ne.symm hdots.1, ?_, ih hdots.2 h⟩⟩
    cases parts with
    | nil => rwa [append_nil] at h
    | cons name rest =>
      rw [Node.kind?_above (cons_ne_nil _ _) h]
      rfl

theorem climb_of_notMem (h : ".." ∉ parts) (here : List String) :
    Path.climb parts here = here ++ parts := by
  induction parts generalizing here with
  | nil => exact (append_nil here).symm
  | cons part parts ih =>
    rw [mem_cons, not_or] at h
    rw [Path.climb, foldl_cons, if_neg (Ne.symm h.1)]
    refine (ih h.2 (here ++ [part])).trans ?_
    rw [append_assoc]
    rfl

/-- A path without double dots leads to whatever stands at its place. -/
theorem locate_of_kind? (hdots : ".." ∉ path.parts)
    (h : (d.root.kind? (d.resolve path).parts).isSome = true) :
    d.locate path = .ok (d.resolve path).parts := by
  have hplace : (d.resolve path).parts = d.start path ++ path.parts := climb_of_notMem hdots _
  rw [hplace] at h ⊢
  exact follow_of_kind? hdots h

/-- A path leads where it led as long as the directories stay and what is there is not lost. -/
theorem locate_of_directories (hworking : d'.working = d.working)
    (hdirectory : ∀ q, d.root.kind? q = some .directory → d'.root.kind? q = some .directory)
    (hl : d.locate path = .ok place)
    (hs : (d.root.kind? place).isSome = true → (d'.root.kind? place).isSome = true) :
    d'.locate path = .ok place := by
  have hfollow : ∀ parts here, follow d.root here parts = .ok place →
      follow d'.root here parts = .ok place := by
    intro parts
    induction parts with
    | nil => exact fun _ hf => hf
    | cons part parts ih =>
      intro here hf
      have hrest := follow_cons_eq_ok.mp hf
      refine follow_cons_eq_ok.mpr ⟨hdirectory _ hrest.1, hrest.2.imp ?_ ?_⟩
      · rintro ⟨hp, hf⟩
        exact ⟨hp, ih _ hf⟩
      · rintro ⟨hp, hsome, hf⟩
        refine ⟨hp, ?_, ih _ hf⟩
        -- a name on the way is that of a directory, and the last one leads to the place itself
        cases parts with
        | nil =>
          obtain rfl := Except.ok.inj hf
          exact hs hsome
        | cons next parts =>
          rw [hdirectory _ (follow_cons_eq_ok.mp hf).1]
          rfl
  rw [Disk.locate, start, hworking]
  exact hfollow _ _ hl

/-- A path whose last part is a name leads below where its parent leads. -/
theorem locate_parent (hlast : path.parts.getLast? = some name) (hname : name ≠ "..")
    (h : d.locate path = .ok place) : ∃ parent, d.locate path.parent = .ok parent ∧
      d.root.kind? parent = some .directory ∧ place = parent ++ [name] := by
  obtain ⟨front, hfront⟩ := getLast?_eq_some_iff.mp hlast
  rw [locate, hfront, follow_append_eq_ok] at h
  obtain ⟨parent, hparent, h⟩ := h
  obtain ⟨hdir, ⟨hp, -⟩ | ⟨-, -, h⟩⟩ := follow_cons_eq_ok.mp h
  · exact absurd hp hname
  · refine ⟨parent, ?_, hdir, (Except.ok.inj h).symm⟩
    rw [locate, Path.parent, hfront, dropLast_concat]
    exact hparent

/-! ### Reading -/

theorem node_eq_ok {n : Node} : d.node path = .ok n ↔
    ∃ place, d.locate path = .ok place ∧ d.root.at? place = some n := by
  rw [node]
  cases d.locate path with
  | error problem => simp [bind, Except.bind]
  | ok place =>
    simp only [bind, Except.bind, Except.ok.injEq, exists_eq_left']
    cases d.root.at? place <;> simp

theorem readContent_eq_ok :
    d.readContent path = .ok content ↔
      ∃ place time, d.locate path = .ok place ∧
        d.root.kind? place = some (.file content time) := by
  rw [readContent, node]
  cases d.locate path with
  | error problem => simp [bind, Except.bind]
  | ok place =>
    simp only [bind, Except.bind, Except.ok.injEq, exists_and_left, exists_eq_left', Node.kind?]
    cases d.root.at? place with
    | none => simp
    | some node => cases node <;> simp [Node.kind]

/-- There is something at a path that leads to a place where something stands. -/
theorem contains_eq_true : d.contains path = true ↔
    ∃ place, d.locate path = .ok place ∧ (d.root.kind? place).isSome = true := by
  rw [contains, node]
  cases d.locate path with
  | error problem => simp [bind, Except.bind]
  | ok place =>
    simp only [bind, Except.bind, Except.ok.injEq, exists_eq_left', Node.kind?, Option.isSome_map]
    cases d.root.at? place <;> rfl

theorem contains_of_readContent (h : d.readContent path = .ok content) :
    d.contains path = true := by
  obtain ⟨place, time, hl, hk⟩ := readContent_eq_ok.mp h
  exact contains_eq_true.mpr ⟨place, hl, by rw [hk]; rfl⟩

theorem exists_readContent_of_isFile (h : d.isFile path = true) :
    ∃ content, d.readContent path = .ok content := by
  rw [isFile] at h
  rw [readContent]
  cases hn : d.node path with
  | error problem => rw [hn] at h; cases h
  | ok node =>
    cases node with
    | file content time => exact ⟨content, rfl⟩
    | directory entries time => rw [hn] at h; cases h

theorem readText_congr (h : d'.readContent path = d.readContent path) :
    d'.readText path = d.readText path := by
  rw [readText, readText, readExact, readExact, h]

theorem readSource_congr (h : d'.readContent path = d.readContent path) :
    d'.readSource path = d.readSource path := by
  rw [readSource, readSource, readText_congr h]

/-! ### Disks that are kept -/

/-- Nothing has gone from the first disk to the second, no file has come and none has changed, but
for the files at the places `touched`. -/
structure KeptIn (touched : List String → Prop) (d d' : Disk) : Prop where
  working : d'.working = d.working
  directory : ∀ place, d.root.kind? place = some .directory →
    d'.root.kind? place = some .directory
  file : ∀ place content time, d.root.kind? place = some (.file content time) →
    ∃ content' time', d'.root.kind? place = some (.file content' time')
  same : ∀ place content time, ¬ touched place →
    (d'.root.kind? place = some (.file content time) ↔
      d.root.kind? place = some (.file content time))

namespace KeptIn

variable {touched : List String → Prop} {d d' : Disk}

theorem refl (touched : List String → Prop) (d : Disk) : d.KeptIn touched d :=
  ⟨rfl, fun _ h => h, fun _ content time h => ⟨content, time, h⟩, fun _ _ _ _ => Iff.rfl⟩

theorem trans (h : d.KeptIn touched d₁) (h' : d₁.KeptIn touched d') : d.KeptIn touched d' where
  working := h'.working.trans h.working
  directory place hp := h'.directory place (h.directory place hp)
  file place content time hp := by
    obtain ⟨content₁, time₁, h₁⟩ := h.file place content time hp
    exact h'.file place content₁ time₁ h₁
  same place content time hp :=
    (h'.same place content time hp).trans (h.same place content time hp)

section
variable (h : d.KeptIn touched d')
include h

theorem mono {touched' : List String → Prop} (ht : ∀ place, touched place → touched' place) :
    d.KeptIn touched' d' :=
  { h with
    same := fun place content time hp => h.same place content time fun hn => hp (ht place hn) }

theorem isSome_kind? (hp : (d.root.kind? place).isSome = true) :
    (d'.root.kind? place).isSome = true := by
  cases hk : d.root.kind? place with
  | none => rw [hk] at hp; cases hp
  | some kind =>
    cases kind with
    | directory => rw [h.directory place hk]; rfl
    | file content time =>
      obtain ⟨content', time', hc⟩ := h.file place content time hk
      rw [hc]
      rfl

/-- A path leads where it led before. -/
theorem locate (hl : d.locate path = .ok place) : d'.locate path = .ok place :=
  locate_of_directories h.working h.directory hl h.isSome_kind?

theorem resolve (path : Path) : d'.resolve path = d.resolve path := by
  rw [Disk.resolve, Disk.resolve, h.working]

/-- A file that is not touched has the content it had before. -/
theorem readContent (hl : d.locate path = .ok place) (hp : ¬ touched place)
    (hr : d.readContent path = .ok content) :
    d'.readContent path = .ok content := by
  obtain ⟨place', time, hl', hk⟩ := readContent_eq_ok.mp hr
  obtain rfl : place = place' := Except.ok.inj (hl.symm.trans hl')
  exact readContent_eq_ok.mpr ⟨place, time, h.locate hl, (h.same place content time hp).mpr hk⟩

/-- A path without double dots that is not touched reads as it did before. -/
theorem readContent_iff (hdots : ".." ∉ path.parts) (hp : ¬ touched (d.resolve path).parts) :
    d'.readContent path = .ok content ↔ d.readContent path = .ok content := by
  constructor
  · intro hr
    obtain ⟨place, time, hl, hk⟩ := readContent_eq_ok.mp hr
    obtain rfl := eq_resolve_of_locate hl
    rw [h.resolve] at hk
    have hk' := (h.same _ content time hp).mp hk
    exact readContent_eq_ok.mpr ⟨_, time, locate_of_kind? hdots (by rw [hk']; rfl), hk'⟩
  · intro hr
    obtain ⟨place, -, hl, -⟩ := readContent_eq_ok.mp hr
    exact h.readContent hl (eq_resolve_of_locate hl ▸ hp) hr

end

end KeptIn

/-! ### Changes -/

/-- A directory that is made where nothing stands. -/
theorem keptIn_set_directory (h : d.root.at? place = none) (time : Int) : d.KeptIn (fun _ => False)
      { d with root := Node.set d.now (.directory [] time) d.root place } := by
  have hnone : ∀ rest, d.root.kind? (place ++ rest) = none := by
    intro rest
    rw [Node.kind?_append, h]
    rfl
  have hcases : ∀ q, (Node.set d.now (.directory [] time) d.root place).kind? q = d.root.kind? q ∨
      d.root.kind? q = none ∧ ∀ content age,
        (Node.set d.now (.directory [] time) d.root place).kind? q ≠ some (.file content age) := by
    intro q
    by_cases hq : place <+: q
    · obtain ⟨rest, rfl⟩ := hq
      rcases Node.kind?_set_append d.root place rest with hs | hs
      · refine .inr ⟨hnone rest, fun content age => ?_⟩
        rw [hs]
        cases rest <;> simp [Node.kind, Node.entries]
      · exact .inl hs
    · exact .inl (Node.kind?_set_of_not_prefix hq)
  refine ⟨rfl, fun q hq => ?_, fun q content age hq => ?_, fun q content age _ => ?_⟩
  · rcases hcases q with hs | ⟨hn, -⟩
    · exact hs.trans hq
    · rw [hn] at hq
      cases hq
  · rcases hcases q with hs | ⟨hn, -⟩
    · exact ⟨content, age, hs.trans hq⟩
    · rw [hn] at hq
      cases hq
  · rcases hcases q with hs | ⟨hn, hf⟩
    · show Node.kind? _ q = _ ↔ _
      rw [hs]
    · exact ⟨fun hc => absurd hc (hf content age), fun hc => by rw [hn] at hc; cases hc⟩

theorem makeDirectory_eq_ok : d.makeDirectory path = .ok d' ↔
    ∃ place, d.place path = .ok place ∧ d.root.at? place = none ∧
      { d with root := Node.set d.now (.directory [] d.now) d.root place } = d' := by
  rw [makeDirectory]
  cases d.place path with
  | error problem => simp [bind, Except.bind]
  | ok place => cases hn : d.root.at? place <;> simp [bind, Except.bind, hn]

theorem keptIn_makeDirectory (h : d.makeDirectory path = .ok d') :
    d.KeptIn (fun _ => False) d' := by
  obtain ⟨place, -, hn, rfl⟩ := makeDirectory_eq_ok.mp h
  exact keptIn_set_directory hn d.now

/-- Directories have been made one after the other, each on the way along a path. -/
inductive Made (path : Path) (d : Disk) : Disk → Prop
  | refl : Made path d d
  | step {d₁ d' : Disk} {way : Path} : Made path d d₁ → way.root = path.root →
      way.parts <+: path.parts → d₁.makeDirectory way = .ok d' → Made path d d'

theorem Made.self (h : Made path d d₁) (hm : d₁.makeDirectory path = .ok d') :
    Made path d d' :=
  .step h rfl (prefix_refl _) hm

theorem Made.of_parent (h : Made path.parent d d') : Made path d d' := by
  induction h with
  | refl => exact .refl
  | step _ hroot hparts hmake ih =>
    exact .step ih hroot (hparts.trans (List.dropLast_prefix _)) hmake

theorem made_makeDirectoriesIn {levels : Nat} (h : makeDirectoriesIn path levels d = .ok d') :
    Made path d d' := by
  induction levels generalizing path d d' with
  | zero =>
    rw [makeDirectoriesIn] at h
    split at h
    · rename_i hm
      cases h
      exact .self .refl hm
    · cases h
    · split at h
      · cases h
        exact .refl
      · cases h
  | succ levels ih =>
    rw [makeDirectoriesIn] at h
    split at h
    · rename_i hm
      cases h
      exact .self .refl hm
    · cases hr : makeDirectoriesIn path.parent levels d with
      | error fault => rw [hr] at h; cases h
      | ok d₁ =>
        have hparent : Made path d d₁ := .of_parent (ih hr)
        rw [hr] at h
        simp only [bind, Except.bind] at h
        split at h
        · rename_i hm
          cases h
          exact .self hparent hm
        · split at h
          · cases h
            exact hparent
          · cases h
    · split at h
      · cases h
        exact .refl
      · cases h

theorem Made.keptIn (h : Made path d d') : d.KeptIn (fun _ => False) d' := by
  induction h with
  | refl => exact .refl _ _
  | step _ _ _ hmake ih => exact ih.trans (keptIn_makeDirectory hmake)

theorem keptIn_makeDirectories (h : d.makeDirectories path = .ok d') :
    d.KeptIn (fun _ => False) d' :=
  (made_makeDirectoriesIn h).keptIn

theorem setTime_eq_ok : d.setTime path time = .ok d' ↔
    ∃ place node, d.locate path = .ok place ∧ d.root.at? place = some node ∧
      { d with root := Node.set d.now (node.withTime time) d.root place } = d' := by
  rw [setTime]
  cases d.locate path with
  | error problem => simp
  | ok place => cases hn : d.root.at? place <;> simp [hn]

/-- The time of a directory is not told apart. -/
theorem kind?_setTime (hl : d.locate path = .ok place) (hdir : d.root.kind? place = some .directory)
    (h : d.setTime path time = .ok d') (q : List String) : d'.root.kind? q = d.root.kind? q := by
  obtain ⟨_, node, hl', hn, rfl⟩ := setTime_eq_ok.mp h
  obtain rfl : place = _ := Except.ok.inj (hl.symm.trans hl')
  rw [Node.kind?, hn] at hdir
  show (Node.set d.now (node.withTime time) d.root place).kind? q = _
  by_cases hq : place <+: q
  · obtain ⟨rest, rfl⟩ := hq
    rcases Node.kind?_set_append d.root place rest with hs | hs
    · rw [hs, Node.kind?_append, hn]
      cases node with
      | file content age => cases hdir
      | directory entries age => cases rest <;> rfl
    · exact hs
  · exact Node.kind?_set_of_not_prefix hq

theorem working_setTime (h : d.setTime path time = .ok d') : d'.working = d.working := by
  obtain ⟨_, _, -, -, rfl⟩ := setTime_eq_ok.mp h
  rfl

theorem keptIn_of_kind? (hw : d'.working = d.working)
    (hsame : ∀ q, d'.root.kind? q = d.root.kind? q) : d.KeptIn (fun _ => False) d' := by
  refine ⟨hw, fun q hq => (hsame q).trans hq,
    fun q content age hq => ⟨content, age, (hsame q).trans hq⟩, fun q content age _ => ?_⟩
  rw [hsame]

theorem keptIn_setTime (hl : d.locate path = .ok place)
    (hdir : d.root.kind? place = some .directory) (h : d.setTime path time = .ok d') :
    d.KeptIn (fun _ => False) d' :=
  keptIn_of_kind? (working_setTime h) (kind?_setTime hl hdir h)

/-- The place of a new entry whose name is no double dot. -/
theorem place_eq_ok (hlast : path.parts.getLast? = some name) (hname : name ≠ "..") :
    d.place path = .ok place ↔ ∃ parent, d.locate path.parent = .ok parent ∧
      d.root.kind? parent = some .directory ∧ parent ++ [name] = place := by
  rw [Disk.place, hlast]
  split
  · rename_i heq
    cases heq
  · rename_i heq
    exact absurd (Option.some.inj heq) hname
  · rename_i heq
    cases heq
    cases d.locate path.parent with
    | error problem => simp [bind, Except.bind]
    | ok parent =>
      cases hn : d.root.at? parent with
      | none => simp [bind, Except.bind, Node.kind?, hn]
      | some node => cases node <;> simp [bind, Except.bind, Node.kind?, Node.kind, hn]

/-- Any other path has to lead to the place itself. -/
theorem place_cases (path : Path) : (∃ name, path.parts.getLast? = some name ∧ name ≠ "..") ∨
    (∀ name ∈ path.parts.getLast?, name = "..") ∧ ∀ d : Disk, d.place path = d.locate path := by
  cases hlast : path.parts.getLast? with
  | none => exact .inr ⟨nofun, fun d => by rw [Disk.place, hlast]⟩
  | some name =>
    by_cases hname : name = ".."
    · subst hname
      exact .inr ⟨by simp, fun d => by rw [Disk.place, hlast]; rfl⟩
    · exact .inl ⟨name, rfl, hname⟩

/-- A file that is put where no directory stands. -/
theorem kind?_set_file (h : d.root.kind? place ≠ some .directory) (hne : q ≠ place)
    (content : Content) (time : Int) :
    (Node.set d.now (.file content time) d.root place).kind? q = d.root.kind? q := by
  by_cases hq : place <+: q
  · obtain ⟨rest, rfl⟩ := hq
    have hrest : rest ≠ [] := fun hr => hne (by rw [hr, append_nil])
    rcases Node.kind?_set_append d.root place rest with hs | hs
    · rw [hs, Node.kind?_below h hrest]
      cases rest with
      | nil => exact absurd rfl hrest
      | cons name rest => rfl
    · exact hs
  · exact Node.kind?_set_of_not_prefix hq

theorem keptIn_set_file (h : d.root.kind? place ≠ some .directory) (content : Content)
    (time : Int) :
    d.KeptIn (· = place) { d with root := Node.set d.now (.file content time) d.root place } := by
  refine ⟨rfl, fun q hq => ?_, fun q old age hq => ?_, fun q old age hne => ?_⟩
  · exact (kind?_set_file h (fun he => h (he ▸ hq)) content time).trans hq
  · by_cases he : q = place
    · subst he
      rcases Node.kind?_set_append d.root q [] with hs | hs <;> rw [append_nil] at hs
      · exact ⟨content, time, hs⟩
      · exact ⟨old, age, hs.trans hq⟩
    · exact ⟨old, age, (kind?_set_file h he content time).trans hq⟩
  · show Node.kind? _ q = _ ↔ _
    rw [kind?_set_file h hne]

theorem writeFile_eq_ok : d.writeFile path content = .ok d' ↔
    ∃ place, d.place path = .ok place ∧ d.root.kind? place ≠ some .directory ∧
      { d with root := Node.set d.now (.file content d.now) d.root place } = d' := by
  rw [writeFile]
  cases d.place path with
  | error problem => simp
  | ok place =>
    cases hn : d.root.at? place with
    | none => simp [Node.kind?, hn]
    | some node => cases node <;> simp [Node.kind?, Node.kind, hn]

/-- A file that is written stands where its path leads, and all else is kept. -/
theorem writeFile_spec (hlast : path.parts.getLast? = some name) (hname : name ≠ "..")
    (h : d.writeFile path content = .ok d') : ∃ parent, d.locate path.parent = .ok parent ∧
      d.root.kind? parent = some .directory ∧
      d'.locate path = .ok (parent ++ [name]) ∧ d.KeptIn (· = parent ++ [name]) d' ∧
      d'.root.kind? (parent ++ [name]) = some (.file content d.now) ∧
      ∀ q, q ≠ parent ++ [name] → d'.root.kind? q = d.root.kind? q := by
  obtain ⟨place, hp, hno, rfl⟩ := writeFile_eq_ok.mp h
  obtain ⟨parent, hl, hdir, rfl⟩ := (place_eq_ok hlast hname).mp hp
  have hself : (Node.set d.now (.file content d.now) d.root (parent ++ [name])).kind?
      (parent ++ [name]) = some (.file content d.now) := by
    rw [Node.kind?, Node.at?_set_self name hdir]
    rfl
  have hkept := keptIn_set_file hno content d.now
  refine ⟨parent, hl, hdir, ?_, hkept, hself, fun q hq => kind?_set_file hno hq _ _⟩
  obtain ⟨front, hfront⟩ := getLast?_eq_some_iff.mp hlast
  have hparts : path.parts.dropLast ++ [name] = path.parts := by
    rw [hfront, dropLast_concat]
  rw [locate, ← hparts, follow_append_eq_ok]
  refine ⟨parent, hkept.locate hl, follow_cons_eq_ok.mpr ⟨hkept.directory parent hdir, .inr ?_⟩⟩
  exact ⟨hname, by rw [hself]; rfl, rfl⟩

theorem replaceFile_eq_ok {text : String} : d.replaceFile path text = .ok d' ↔
    ∃ d₁ d₂, d.makeDirectories path.parent = .ok d₁ ∧ d₁.writeFile path (.text text) = .ok d₂ ∧
      d₂.setTime path.parent d₂.now = .ok d' := by
  rw [replaceFile]
  cases d.makeDirectories path.parent with
  | error fault => simp [bind, Except.bind]
  | ok d₁ => cases hw : d₁.writeFile path (.text text) <;> simp [bind, Except.bind, hw]

/-- **A file that is replaced has its new content**, where its path leads, and all else is kept. -/
theorem replaceFile_spec {content : String} (hlast : path.parts.getLast? = some name)
    (hname : name ≠ "..") (h : d.replaceFile path content = .ok d') : ∃ parent,
      d'.locate path = .ok (parent ++ [name]) ∧ d.KeptIn (· = parent ++ [name]) d' ∧
      ∃ time, d'.root.kind? (parent ++ [name]) = some (.file (.text content) time) := by
  obtain ⟨d₁, d₂, hm, hw, h⟩ := replaceFile_eq_ok.mp h
  obtain ⟨parent, hp, hdir, hl, hkept, hfile, -⟩ := writeFile_spec hlast hname hw
  have htime := keptIn_setTime (hkept.locate hp) (hkept.directory _ hdir) h
  refine ⟨parent, htime.locate hl, ?_, _, (htime.same _ _ _ id).mpr hfile⟩
  exact (((keptIn_makeDirectories hm).mono fun _ => False.elim).trans hkept).trans
    (htime.mono fun _ => False.elim)

/-! ### Files that are there -/

theorem at?_of_directory (h : root.kind? place = some .directory) :
    ∃ entries time, root.at? place = some (.directory entries time) := by
  obtain ⟨node, hn, hk⟩ := Option.map_eq_some_iff.mp h
  cases node with
  | file content time => cases hk
  | directory entries time => exact ⟨entries, time, hn⟩

/-- A directory that is there need not be made. -/
theorem makeDirectoriesIn_of_directory (hl : d.locate path = .ok place)
    (h : d.root.kind? place = some .directory) (levels : Nat) :
    makeDirectoriesIn path levels d = .ok d := by
  obtain ⟨entries, time, hn⟩ := at?_of_directory h
  have hplace : d.place path = .ok place := by
    rcases place_cases path with ⟨name, hlast, hname⟩ | ⟨-, hsame⟩
    · obtain ⟨parent, hparent, hdir, rfl⟩ := locate_parent hlast hname hl
      exact (place_eq_ok hlast hname).mpr ⟨parent, hparent, hdir, rfl⟩
    · rw [hsame, hl]
  have htaken : d.makeDirectory path = .error .taken := by
    rw [makeDirectory, hplace]
    simp only [bind, Except.bind, hn]
  have hdirectory : d.isDirectory path = true := by
    rw [isDirectory, node, hl]
    simp only [bind, Except.bind, hn]
    rfl
  rw [makeDirectoriesIn.eq_def]
  dsimp only
  rw [htaken]
  simp only [hdirectory, if_true]

/-- A file can be put into a directory that is made, unless a directory stands in its place. -/
theorem exists_replaceFile_of_made {parent : List String} (hlast : path.parts.getLast? = some name)
    (hname : name ≠ "..") (hmake : d.makeDirectories path.parent = .ok d₁)
    (hparent : d₁.locate path.parent = .ok parent) (hdir : d₁.root.kind? parent = some .directory)
    (hfile : d₁.root.kind? (parent ++ [name]) ≠ some .directory) (text : String) :
    ∃ d', d.replaceFile path text = .ok d' := by
  have hwrite : d₁.writeFile path (.text text) = .ok { d₁ with
      root := Node.set d₁.now (.file (.text text) d₁.now) d₁.root (parent ++ [name]) } :=
    writeFile_eq_ok.mpr ⟨_, (place_eq_ok hlast hname).mpr ⟨_, hparent, hdir, rfl⟩, hfile, rfl⟩
  obtain ⟨parent', hparent', hdir', -, hkept, -, -⟩ := writeFile_spec hlast hname hwrite
  obtain ⟨_, _, hp'⟩ := at?_of_directory (hkept.directory _ hdir')
  exact ⟨_, replaceFile_eq_ok.mpr ⟨d₁, _, hmake, hwrite,
    setTime_eq_ok.mpr ⟨parent', _, hkept.locate hparent', hp', rfl⟩⟩⟩

/-- A file that is there can be replaced. -/
theorem exists_replaceFile (hlast : path.parts.getLast? = some name) (hname : name ≠ "..")
    (h : d.readContent path = .ok content) (text : String) :
    ∃ d', d.replaceFile path text = .ok d' := by
  obtain ⟨place, time, hl, hk⟩ := readContent_eq_ok.mp h
  obtain ⟨parent, hparent, hdir, rfl⟩ := locate_parent hlast hname hl
  refine exists_replaceFile_of_made hlast hname
    (makeDirectoriesIn_of_directory hparent hdir _) hparent hdir ?_ text
  rw [hk]
  exact nofun

end Disk

end Avroc
