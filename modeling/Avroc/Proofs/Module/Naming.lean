import Avroc.Module.Naming
import Avroc.Proofs.Name
import Avroc.Proofs.Schema.Growth

/-!
# The files of modules

* `modulePath_of_legal` : the parts of a legal full name are the directories and the file.
* `modulePath_injective` : legal full names that differ have modules in different files.
-/

namespace Avroc

open List

variable {fullName name s : String}

theorem splitString_inj {mark : Char} {s' : String}
    (h : Text.splitString mark s = Text.splitString mark s') : s = s' := by
  have hinj : Function.Injective String.ofList := fun a b hab => String.ofList_inj.mp hab
  have hparts := (map_injective_iff.mpr hinj) h
  rw [← String.toList_inj, ← Text.intercalate_splitAtEach mark s.toList, hparts,
    Text.intercalate_splitAtEach]

theorem splitString_ne_nil (mark : Char) (s : String) : Text.splitString mark s ≠ [] := by
  rw [Text.splitString, Ne, map_eq_nil_iff]
  exact Text.splitAtEach_ne_nil _ _

/-! ### The last part -/

theorem Path.getLast?_join (p : Path) {q : Path} (h : q.parts.getLast? = some name) :
    (p.join q).parts.getLast? = some name := by
  rw [join]
  split
  · exact h
  · rw [getLast?_append, h]
    rfl

/-- A text with an extension is longer than a dot or two. -/
theorem append_ne_of_length {extension : String} (stem : String)
    (h : s.toList.length < extension.toList.length) : stem ++ extension ≠ s := by
  rintro rfl
  rw [String.toList_append, length_append] at h
  omega

theorem ofList_append_py_ne (stem : List Char) (h : s.toList.length < 3) :
    String.ofList (stem ++ ".py".toList) ≠ s := by
  rw [String.ofList_append]
  exact append_ne_of_length _ h

/-- The file lies where a full name leads. -/
def SourceFile.Named (file : SourceFile) : Prop :=
  ∃ fullName, file.path = modulePath fullName

/-- The last part of a path with an extension ends in it. -/
theorem Path.suffix_last {p : Path} {extension : List Char} (he : extension ≠ [])
    (h : p.suffix = String.ofList ('.' :: extension)) :
    ∃ stem, p.parts.getLast? = some (String.ofList (stem ++ '.' :: extension)) := by
  rw [suffix, String.ofList_inj, splitSuffix] at h
  split at h
  · rename_i stem ext hs
    split at h
    · cases h
    · obtain ⟨hname, -⟩ := Text.splitAtLast?_eq_some hs
      simp only [List.cons.injEq, true_and] at h
      subst h
      rw [name] at hname
      cases hl : p.parts.getLast? with
      | none =>
        rw [hl] at hname
        simp at hname
      | some last =>
        rw [hl] at hname
        refine ⟨stem, ?_⟩
        rw [← hname]
        simp
  · cases h

/-! ### Legal full names -/

/-- The parts of the full name are legal names. -/
def LegalFullName (fullName : String) : Prop :=
  ∀ part ∈ Text.splitString '.' fullName, isLegalName part = true

theorem legalFullName_joinName (hname : isLegalName name = true) {space : Option String}
    (hspace : LegalSpace space) : LegalFullName (joinName name space) := by
  have hsplit : Text.splitString '.' name = [name] := by
    rw [Text.splitString, Text.splitAtEach_of_notMem (not_dot_mem_of_isLegalName hname)]
    simp
  intro part hp
  rw [joinName] at hp
  cases hs : space.bind spaceOf with
  | none =>
    rw [hs] at hp
    dsimp only at hp
    rw [hsplit, mem_singleton] at hp
    rwa [hp]
  | some s =>
    obtain ⟨s', hs', hgiven⟩ := Option.bind_eq_some_iff.mp hs
    obtain rfl : s' = s := by
      rw [spaceOf] at hgiven
      split at hgiven
      · cases hgiven
      · exact Option.some.inj hgiven
    have hparts : Text.splitString '.' (s' ++ "." ++ name) =
        Text.splitString '.' s' ++ Text.splitString '.' name := by
      rw [Text.splitString, String.toList_append, String.toList_append, append_assoc,
        show ".".toList ++ name.toList = '.' :: name.toList from rfl, Text.splitAtEach_mark,
        map_append]
      rfl
    rw [hs] at hp
    dsimp only at hp
    rw [hparts, hsplit, mem_append, mem_singleton] at hp
    rcases hp with hp | rfl
    · exact hspace s' hs' part hp
    · exact hname

theorem Definition.Named.legalFullName {d : Definition} (h : d.Named) :
    LegalFullName d.fullName :=
  legalFullName_joinName h.1 h.2

theorem slash_notMem_of_isLegalName (h : isLegalName name = true) : '/' ∉ name.toList := by
  intro hd
  rcases isNamePart_of_isLegalName h hd with hp | hp
  · cases hp
  · cases hp

/-- A text without a slash that is no dot is one part of a path. -/
theorem Path.ofString_of_notMem (hs : '/' ∉ s.toList) (he : s ≠ "") (hd : s ≠ ".") :
    Path.ofString s = ⟨"", [s]⟩ := by
  have hroot : Path.rootOf s.toList = "" := by
    unfold Path.rootOf
    split
    · rename_i heq
      exact absurd (by rw [heq]; exact mem_cons_self) hs
    · rename_i heq
      exact absurd (by rw [heq]; exact mem_cons_self) hs
    · rename_i heq
      exact absurd (by rw [heq]; exact mem_cons_self) hs
    · rfl
  rw [Path.ofString, hroot, Text.splitString, Text.splitAtEach_of_notMem hs]
  simp [he, hd]

theorem foldl_join_ofString {parts : List String}
    (h : ∀ part ∈ parts, Path.ofString part = ⟨"", [part]⟩) (front : List String) :
    parts.foldl (fun path part => path.join (.ofString part)) (⟨"", front⟩ : Path) =
      ⟨"", front ++ parts⟩ := by
  induction parts generalizing front with
  | nil => rw [append_nil]; rfl
  | cons part parts ih =>
    rw [forall_mem_cons] at h
    rw [foldl_cons, h.1]
    refine (ih h.2 (front ++ [part])).trans ?_
    rw [append_assoc]
    rfl

theorem legal_last (h : LegalFullName fullName) :
    isLegalName ((Text.splitString '.' fullName).getLast?.getD "") = true := by
  cases hl : (Text.splitString '.' fullName).getLast? with
  | none => exact absurd (getLast?_eq_none_iff.mp hl) (splitString_ne_nil _ _)
  | some last => exact h last (mem_of_getLast? hl)

/-- **The parts of a legal full name are the directories of its module and the file.** -/
theorem modulePath_of_legal (h : LegalFullName fullName) :
    modulePath fullName = ⟨"", (Text.splitString '.' fullName).dropLast ++
      [(Text.splitString '.' fullName).getLast?.getD "" ++ ".py"]⟩ := by
  refine foldl_join_ofString (fun part hp => ?_) []
  rcases mem_append.mp hp with hp | hp
  · have hl := h part ((dropLast_sublist _).mem hp)
    refine Path.ofString_of_notMem (slash_notMem_of_isLegalName hl) (ne_empty_of_isLegalName hl) ?_
    rintro rfl
    cases hl
  · obtain rfl := mem_singleton.mp hp
    have hl := legal_last h
    generalize (Text.splitString '.' fullName).getLast?.getD "" = last at hl
    refine Path.ofString_of_notMem ?_ (append_ne_of_length _ (by decide))
      (append_ne_of_length _ (by decide))
    rw [String.toList_append, mem_append, not_or]
    exact ⟨slash_notMem_of_isLegalName hl, by decide⟩

/-- The parts of a legal full name are the directories and the stem of its module. -/
theorem LegalFullName.exists_parts (h : LegalFullName fullName) : ∃ front stem,
    Text.splitString '.' fullName = front ++ [stem] ∧
      modulePath fullName = ⟨"", front ++ [stem ++ ".py"]⟩ := by
  obtain ⟨front, stem, he⟩ := (eq_nil_or_concat _).resolve_left (splitString_ne_nil '.' fullName)
  rw [concat_eq_append] at he
  refine ⟨front, stem, he, ?_⟩
  rw [modulePath_of_legal h, he, dropLast_concat, getLast?_concat, Option.getD_some]

/-- **Legal full names that differ have modules in different files.** -/
theorem modulePath_injective {a b : String} (ha : LegalFullName a) (hb : LegalFullName b)
    (h : modulePath a = modulePath b) : a = b := by
  obtain ⟨front, stem, hparts, hmodule⟩ := ha.exists_parts
  obtain ⟨front', stem', hparts', hmodule'⟩ := hb.exists_parts
  rw [hmodule, hmodule', Path.mk.injEq] at h
  obtain ⟨hfront, hlast⟩ := append_inj' h.2 rfl
  have hstem : stem = stem' := by simpa using hlast
  have hsplit : Text.splitString '.' a = Text.splitString '.' b := by
    rw [hparts, hparts', hfront, hstem]
  exact splitString_inj hsplit

end Avroc
