import Avroc.Proofs.File.Writing
import Avroc.Proofs.Module.Naming

/-!
# Names of files

The names that can stand in a directory, and the paths that are made of them.

* `Path.Spelled` : a path of proper names and double dots; these are the paths that texts spell
  (`Path.spelled_ofString`), and **the text of a path spells it** (`Path.Spelled.ofString_text`).
-/

namespace Avroc

open List

variable {entries : List (String × Node)} {parts place : List String} {name : String}
  {node child : Node} {time : Int}

/-- A name that can stand in a directory. -/
def ProperName (name : String) : Prop :=
  name ≠ "" ∧ name ≠ "." ∧ name ≠ ".." ∧ '/' ∉ name.toList

instance (name : String) : Decidable (ProperName name) :=
  inferInstanceAs (Decidable (_ ∧ _ ∧ _ ∧ _))

/-- A part of a path: a proper name or a double dot. -/
def ProperPart (part : String) : Prop :=
  part = ".." ∨ ProperName part

theorem ProperPart.iff {part : String} :
    ProperPart part ↔ part ≠ "" ∧ part ≠ "." ∧ '/' ∉ part.toList := by
  constructor
  · rintro (rfl | ⟨he, hd, -, hs⟩)
    · decide
    · exact ⟨he, hd, hs⟩
  · rintro ⟨he, hd, hs⟩
    by_cases hdots : part = ".."
    · exact .inl hdots
    · exact .inr ⟨he, hd, hdots, hs⟩

/-! ### Trees -/

namespace Node

/-- Every directory of the tree lists proper names, each once. -/
inductive WellNamed : Node → Prop
  | file (content : Content) (time : Int) : WellNamed (.file content time)
  | directory {entries : List (String × Node)} (time : Int) (names : (entries.map (·.1)).Nodup)
      (proper : ∀ e ∈ entries, ProperName e.1) (below : ∀ e ∈ entries, WellNamed e.2) :
      WellNamed (.directory entries time)

theorem mem_of_lookup (h : entries.lookup name = some node) :
    (name, node) ∈ entries := by
  obtain ⟨l₁, l₂, rfl, -⟩ := lookup_eq_some_iff.mp h
  simp

namespace WellNamed

variable {now : Int} {n new : Node}

theorem setEntry (h : WellNamed (.directory entries time)) (hl : entries.lookup name = some child)
    (hnew : new.WellNamed) :
    WellNamed (.directory (Node.setEntry name new entries) time) := by
  cases h with
  | directory _ names proper below =>
    have hold := mem_of_lookup hl
    rw [setEntry_eq_putKey]
    refine .directory _ (by rwa [keys_putKey_of_mem (mem_map_of_mem hold)]) (fun e he => ?_)
      (fun e he => ?_)
    · rcases mem_putKey he with rfl | he
      · exact proper (name, child) hold
      · exact proper e he
    · rcases mem_putKey he with rfl | he
      · exact hnew
      · exact below e he

/-- A well-named node that is put in place under proper names. -/
theorem set (h : n.WellNamed) (hnew : new.WellNamed) (hplace : ∀ name ∈ place, ProperName name) :
    (Node.set now new n place).WellNamed := by
  induction place generalizing n with
  | nil => exact hnew
  | cons name place ih =>
    rw [forall_mem_cons] at hplace
    cases n with
    | file content time => exact h
    | directory entries time =>
      rw [Node.set]
      cases hl : entries.lookup name with
      | some child =>
        cases h with
        | directory _ names proper below =>
          exact (WellNamed.directory time names proper below).setEntry hl
            (ih (below _ (mem_of_lookup hl)) hplace.2)
      | none =>
        dsimp only
        split
        · cases h with
          | directory _ names proper below =>
            have hfresh : ∀ e ∈ entries, e.1 ≠ name := by
              rintro e he rfl
              rw [lookup_eq_none_iff] at hl
              exact absurd (hl e he) (by simp)
            refine .directory _ ?_ (fun e he => ?_) (fun e he => ?_)
            · rw [map_append, nodup_append]
              refine ⟨names, nodup_cons.mpr ⟨not_mem_nil, nodup_nil⟩, ?_⟩
              intro a ha b hb hab
              obtain ⟨e, he, rfl⟩ := mem_map.mp ha
              exact hfresh e he (hab.trans (mem_singleton.mp hb))
            · rcases mem_append.mp he with he | he
              · exact proper e he
              · obtain rfl := mem_singleton.mp he
                exact hplace.1
            · rcases mem_append.mp he with he | he
              · exact below e he
              · obtain rfl := mem_singleton.mp he
                exact hnew
        · exact h

theorem erase (h : n.WellNamed) : (Node.erase now n place).WellNamed := by
  induction place generalizing n with
  | nil => exact h
  | cons name place ih =>
    cases n with
    | file content time => exact h
    | directory entries time =>
      rw [Node.erase]
      cases hl : entries.lookup name with
      | none => exact h
      | some child =>
        cases h with
        | directory _ names proper below =>
          dsimp only
          split
          · have hsub : (entries.filter (·.1 ≠ name)).Sublist entries := filter_sublist
            exact .directory _ (names.sublist (hsub.map _)) (fun e he => proper e (hsub.mem he))
              fun e he => below e (hsub.mem he)
          · exact (WellNamed.directory time names proper below).setEntry hl
              (ih (below _ (mem_of_lookup hl)))

theorem at? (h : n.WellNamed) {m : Node} (hm : n.at? place = some m) : m.WellNamed := by
  induction place generalizing n with
  | nil => exact Option.some.inj hm ▸ h
  | cons name place ih =>
    cases h with
    | file content time => cases hm
    | directory time names proper below =>
      rw [Node.at?] at hm
      split at hm
      · rename_i child hl
        exact ih (below _ (mem_of_lookup hl)) hm
      · cases hm

end WellNamed

end Node

/-! ### Texts of paths -/

theorem Text.splitAtEach_intercalate {mark : Char} {parts : List (List Char)} (hne : parts ≠ [])
    (h : ∀ part ∈ parts, mark ∉ part) : splitAtEach mark ([mark].intercalate parts) = parts := by
  induction parts with
  | nil => exact absurd rfl hne
  | cons part parts ih =>
    rw [forall_mem_cons] at h
    cases parts with
    | nil => rw [intercalate_singleton, splitAtEach_of_notMem h.1]
    | cons next parts =>
      rw [intercalate_cons_cons, append_assoc, singleton_append, splitAtEach_mark,
        splitAtEach_of_notMem h.1, ih (by simp) h.2]
      rfl

namespace Path

/-- The path has a proper root, and its parts are proper names and double dots. -/
structure Spelled (p : Path) : Prop where
  root : p.root = "" ∨ p.root = "/" ∨ p.root = "//"
  parts : ∀ part ∈ p.parts, ProperPart part

/-- The path has a proper root, and its parts are proper names. -/
structure Plain (p : Path) : Prop where
  root : p.root = "" ∨ p.root = "/" ∨ p.root = "//"
  parts : ∀ name ∈ p.parts, ProperName name

variable {p q : Path}

theorem Plain.spelled (h : p.Plain) : p.Spelled :=
  ⟨h.root, fun name hm => .inr (h.parts name hm)⟩

theorem rootOf_cases (cs : List Char) : rootOf cs = "" ∨ rootOf cs = "/" ∨ rootOf cs = "//" := by
  unfold rootOf
  split <;> simp

theorem Plain.dots_notMem (h : p.Plain) : ".." ∉ p.parts :=
  fun hm => (h.parts _ hm).2.2.1 rfl

theorem Plain.join (hp : p.Plain) (hq : q.Plain) : (p.join q).Plain := by
  rw [Path.join]
  split
  · exact hq
  · exact ⟨hp.root, fun name hm => (mem_append.mp hm).elim (hp.parts name) (hq.parts name)⟩

theorem Plain.parent (h : p.Plain) : p.parent.Plain :=
  ⟨h.root, fun name hm => h.parts name ((dropLast_sublist _).mem hm)⟩

/-- The parts of the text of a path, between the slashes that follow its root. -/
def partsText (parts : List String) : List Char :=
  ['/'].intercalate (parts.map String.toList)

theorem toList_text (h : ¬ (p.root = "" ∧ p.parts = [])) :
    p.text.toList = p.root.toList ++ partsText p.parts := by
  have hne : ¬ (p.root = "" && p.parts.isEmpty) = true := by simpa using h
  rw [text, if_neg hne, String.toList_append, String.toList_intercalate]
  rfl

/-- The parts start with no slash. -/
theorem head_partsText (h : ∀ part ∈ parts, ProperPart part) :
    ∀ c ∈ (partsText parts).head?, c ≠ '/' := by
  cases parts with
  | nil => simp [partsText]
  | cons name parts =>
    have hname := ProperPart.iff.mp (h name mem_cons_self)
    cases hc : name.toList with
    | nil => exact absurd (String.toList_eq_nil_iff.mp hc) hname.1
    | cons c cs =>
      have hslash : c ≠ '/' := by
        rintro rfl
        exact hname.2.2 (hc ▸ mem_cons_self)
      cases parts <;> simp [partsText, hc, intercalate_cons_cons, hslash]

theorem rootOf_append {root : String} (hroot : root = "" ∨ root = "/" ∨ root = "//")
    {rest : List Char} (h : ∀ c ∈ rest.head?, c ≠ '/') : rootOf (root.toList ++ rest) = root := by
  cases rest with
  | nil => rcases hroot with rfl | rfl | rfl <;> rfl
  | cons c rest =>
    have hc : c ≠ '/' := h c rfl
    rcases hroot with rfl | rfl | rfl
    · show rootOf (c :: rest) = ""
      unfold rootOf
      split <;> simp_all
    · show rootOf ('/' :: c :: rest) = "/"
      unfold rootOf
      split <;> simp_all
    · show rootOf ('/' :: '/' :: c :: rest) = "//"
      unfold rootOf
      split
      · rename_i heq
        cases heq
        exact absurd rfl hc
      · rfl
      · rename_i hnot heq
        cases heq
        exact absurd rfl (hnot _)
      · simp_all

/-- The parts that a text of parts spells. -/
theorem filter_splitAtEach_partsText (h : ∀ part ∈ parts, ProperPart part) :
    ((Text.splitAtEach '/' (partsText parts)).map String.ofList).filter
      (fun part => part != "" && part != ".") = parts := by
  cases parts with
  | nil => rfl
  | cons name rest =>
    have hslash : ∀ part ∈ (name :: rest).map String.toList, '/' ∉ part := by
      rintro _ hm
      obtain ⟨part, hpart, rfl⟩ := mem_map.mp hm
      exact (ProperPart.iff.mp (h part hpart)).2.2
    have hself : (String.ofList ∘ String.toList) = id := funext fun s => String.ofList_toList
    rw [partsText, Text.splitAtEach_intercalate (by simp) hslash, map_map, hself, map_id,
      filter_eq_self]
    intro part hpart
    obtain ⟨he, hd, -⟩ := ProperPart.iff.mp (h part hpart)
    simp [he, hd]

/-- **A path is spelled by its text.** -/
theorem Spelled.ofString_text (h : p.Spelled) : ofString p.text = p := by
  obtain ⟨root, parts⟩ := p
  by_cases hp : root = "" ∧ parts = []
  · obtain ⟨rfl, rfl⟩ := hp
    rfl
  · rw [ofString, Text.splitString, toList_text hp, rootOf_append h.root (head_partsText h.parts),
      Path.mk.injEq]
    refine ⟨rfl, ?_⟩
    have hrest := filter_splitAtEach_partsText h.parts
    rcases h.root with hr | hr | hr <;> dsimp only at hr hrest ⊢ <;> subst hr
    · exact hrest
    · exact hrest
    · exact hrest

theorem Plain.ofString_text (h : p.Plain) : ofString p.text = p :=
  h.spelled.ofString_text

end Path

/-! ### Disks -/

namespace Disk

/-- The tree of the disk and its working directory have proper names. -/
structure WellNamed (d : Disk) : Prop where
  root : d.root.WellNamed
  working : ∀ name ∈ d.working, ProperName name

variable {d d' : Disk} {path : Path}

theorem eq_resolve_of_place (h : d.place path = .ok place) :
    place = (d.resolve path).parts := by
  rcases place_cases path with ⟨name, hlast, hname⟩ | ⟨-, hsame⟩
  · obtain ⟨parent, hl, -, rfl⟩ := (place_eq_ok hlast hname).mp h
    obtain ⟨front, hfront⟩ := getLast?_eq_some_iff.mp hlast
    rw [eq_resolve_of_locate hl, resolve, resolve, Path.resolve, Path.resolve, Path.parent, hfront,
      dropLast_concat]
    simp [Path.climb, Path.isAbsolute, hname]
  · exact eq_resolve_of_locate (hsame d ▸ h)

/-- The place of a plain path. -/
theorem resolve_of_plain (h : path.Plain) :
    d.resolve path = ⟨"/", d.start path ++ path.parts⟩ := by
  rw [resolve, Path.resolve, climb_of_notMem h.dots_notMem]
  rfl

/-- Going along parts from a directory leads along proper names. -/
theorem properName_climb {here : List String} (hparts : ∀ part ∈ parts, ProperPart part)
    (hhere : ∀ name ∈ here, ProperName name) : ∀ name ∈ Path.climb parts here, ProperName name := by
  induction parts generalizing here with
  | nil => exact hhere
  | cons part parts ih =>
    rw [forall_mem_cons] at hparts
    rw [Path.climb, foldl_cons]
    refine ih hparts.2 fun name hm => ?_
    split at hm
    · exact hhere name ((dropLast_sublist _).mem hm)
    · rename_i hdots
      rcases mem_append.mp hm with hm | hm
      · exact hhere name hm
      · obtain rfl := mem_singleton.mp hm
        exact hparts.1.resolve_left hdots

/-- The absolute path that a path stands for has neither double dots nor odd names. -/
theorem plain_resolve (h : ∀ name ∈ d.working, ProperName name) (hp : path.Spelled) :
    (d.resolve path).Plain := by
  refine ⟨.inr (.inl rfl), properName_climb hp.parts ?_⟩
  split
  · exact forall_mem_nil _
  · exact h

/-- An absolute path without double dots stands for itself. -/
theorem resolve_resolve (h : ∀ name ∈ d.working, ProperName name) (hp : path.Spelled) :
    d.resolve (.ofString (d.resolve path).text) = d.resolve path := by
  rw [(plain_resolve h hp).ofString_text, resolve_of_plain (plain_resolve h hp)]
  rfl

namespace WellNamed

section
variable (h : d.WellNamed) (hp : path.Plain)
include h hp

theorem resolve : (d.resolve path).Plain :=
  plain_resolve h.working hp.spelled

theorem writeFile {content : Content} (hd : d.writeFile path content = .ok d') : d'.WellNamed := by
  obtain ⟨place, hplace, -, rfl⟩ := writeFile_eq_ok.mp hd
  rw [eq_resolve_of_place hplace]
  exact ⟨h.root.set (.file _ _) (h.resolve hp).parts, h.working⟩

theorem makeDirectory (hd : d.makeDirectory path = .ok d') :
    d'.WellNamed := by
  obtain ⟨place, hplace, -, rfl⟩ := makeDirectory_eq_ok.mp hd
  rw [eq_resolve_of_place hplace]
  refine ⟨h.root.set (.directory _ nodup_nil ?_ ?_) (h.resolve hp).parts, h.working⟩
  · exact forall_mem_nil _
  · exact forall_mem_nil _

theorem setTime (hd : d.setTime path time = .ok d') :
    d'.WellNamed := by
  obtain ⟨place, node, hplace, hn, rfl⟩ := setTime_eq_ok.mp hd
  rw [eq_resolve_of_locate hplace]
  refine ⟨h.root.set ?_ (h.resolve hp).parts, h.working⟩
  cases h.root.at? hn with
  | file content age => exact .file content time
  | directory age names proper below => exact .directory time names proper below

end

theorem removeFile (h : d.WellNamed) (hd : d.removeFile path = .ok d') : d'.WellNamed := by
  rw [Disk.removeFile] at hd
  split at hd
  · cases hd
  · split at hd
    · cases hd
    · cases hd
      exact ⟨h.root.erase, h.working⟩

end WellNamed

end Disk

end Avroc
