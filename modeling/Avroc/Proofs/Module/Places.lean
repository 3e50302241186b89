import Avroc.Proofs.File.Names

/-!
# The places of modules

The path of a module is made of plain names, whatever the full name is: a dot in a full name ends
a part, so that no directory on the way has a dot in its name.

* `exists_modulePath` : the shape of the path of a module.
* `plain_modulePath` : the path is plain.
-/

namespace Avroc

open List

/-- A proper name without a dot. -/
def DotlessName (name : String) : Prop :=
  ProperName name ∧ '.' ∉ name.toList

theorem DotlessName.of_chars {name : String} (hne : name ≠ "") (hslash : '/' ∉ name.toList)
    (hdot : '.' ∉ name.toList) : DotlessName name := by
  refine ⟨⟨hne, ?_, ?_, hslash⟩, hdot⟩
  · rintro rfl
    exact hdot (by decide)
  · rintro rfl
    exact hdot (by decide)

namespace Path

theorem properPart_of_ofString {s part : String} (h : part ∈ (ofString s).parts) :
    ProperPart part ∧ ∀ c ∈ part.toList, c ∈ s.toList := by
  obtain ⟨hm, hkeep⟩ := mem_filter.mp h
  obtain ⟨chars, hchars, rfl⟩ := mem_map.mp hm
  rw [Bool.and_eq_true, bne_iff_ne, bne_iff_ne] at hkeep
  rw [ProperPart.iff, String.toList_ofList]
  exact ⟨⟨hkeep.1, hkeep.2, fun hc => (Text.mem_of_mem_splitAtEach hchars hc).2 rfl⟩,
    fun c hc => (Text.mem_of_mem_splitAtEach hchars hc).1⟩

theorem dotless_ofString {s : String} (h : '.' ∉ s.toList) :
    ∀ name ∈ (ofString s).parts, DotlessName name := by
  intro name hm
  obtain ⟨hproper, hchars⟩ := properPart_of_ofString hm
  obtain ⟨hne, -, hslash⟩ := ProperPart.iff.mp hproper
  exact .of_chars hne hslash fun hd => h (hchars _ hd)

/-- A path made of texts without dots. -/
theorem dotless_foldl {texts : List String} (h : ∀ s ∈ texts, '.' ∉ s.toList) {p : Path}
    (hroot : p.root = "" ∨ p.root = "/" ∨ p.root = "//") (hp : ∀ name ∈ p.parts, DotlessName name) :
    let q := texts.foldl (fun path part => path.join (.ofString part)) p
    (q.root = "" ∨ q.root = "/" ∨ q.root = "//") ∧ ∀ name ∈ q.parts, DotlessName name := by
  induction texts generalizing p with
  | nil => exact ⟨hroot, hp⟩
  | cons s texts ih =>
    rw [forall_mem_cons] at h
    rw [foldl_cons]
    have hs := dotless_ofString h.1
    apply ih h.2
    · rw [join]
      split
      · exact rootOf_cases _
      · exact hroot
    · rw [join]
      split
      · exact hs
      · intro name hm
        exact (mem_append.mp hm).elim (hp name) (hs name)

end Path

theorem dot_notMem_of_mem_splitString {s part : String} (h : part ∈ Text.splitString '.' s) :
    '.' ∉ part.toList := by
  obtain ⟨chars, hc, rfl⟩ := mem_map.mp h
  rw [String.toList_ofList]
  exact fun hd => (Text.mem_of_mem_splitAtEach hc hd).2 rfl

/-- **The shape of the path of a module**: directories without dots, and a file whose only dot is
that of its extension. -/
theorem exists_modulePath (fullName : String) : ∃ root front stem,
    modulePath fullName = ⟨root, front ++ [String.ofList (stem ++ ".py".toList)]⟩ ∧
      (root = "" ∨ root = "/" ∨ root = "//") ∧ (∀ name ∈ front, DotlessName name) ∧
      '.' ∉ stem ∧ '/' ∉ stem := by
  have hparts : ∀ part ∈ Text.splitString '.' fullName, '.' ∉ part.toList :=
    fun part hp => dot_notMem_of_mem_splitString hp
  have hlast : '.' ∉ ((Text.splitString '.' fullName).getLast?.getD "").toList := by
    cases hl : (Text.splitString '.' fullName).getLast? with
    | none => decide
    | some last => exact hparts last (mem_of_getLast? hl)
  rw [modulePath, foldl_append, foldl_cons, foldl_nil]
  have hfront := Path.dotless_foldl (p := ⟨"", []⟩)
    (fun s hs => hparts s ((dropLast_sublist _).mem hs)) (.inl rfl) (forall_mem_nil _)
  generalize (Text.splitString '.' fullName).getLast?.getD "" = last at hlast
  generalize (Text.splitString '.' fullName).dropLast.foldl _ _ = p at hfront
  have hpy : '/' ∉ ".py".toList := by decide
  obtain ⟨front, stem, hs, hs'⟩ := Text.splitAtEach_append last.toList hpy
  have hstem : '.' ∉ stem ∧ '/' ∉ stem := by
    have hm : stem ∈ Text.splitAtEach '/' last.toList := by simp [hs]
    exact ⟨fun hd => hlast (Text.mem_of_mem_splitAtEach hm hd).1,
      fun hd => (Text.mem_of_mem_splitAtEach hm hd).2 rfl⟩
  have hofString : Path.ofString (last ++ ".py") = ⟨Path.rootOf (last ++ ".py").toList,
      ((front.map String.ofList).filter fun part => part != "" && part != ".") ++
        [String.ofList (stem ++ ".py".toList)]⟩ := by
    have hkeep : (String.ofList (stem ++ ".py".toList) != "" &&
        String.ofList (stem ++ ".py".toList) != ".") = true := by
      rw [Bool.and_eq_true, bne_iff_ne, bne_iff_ne]
      exact ⟨ofList_append_py_ne stem (by decide), ofList_append_py_ne stem (by decide)⟩
    rw [Path.ofString, Text.splitString, String.toList_append, hs', map_append,
      filter_append, map_singleton, filter_singleton, hkeep]
    rfl
  have hnew : ∀ name ∈ (front.map String.ofList).filter fun part => part != "" && part != ".",
      DotlessName name := by
    intro name hm
    refine Path.dotless_ofString hlast name ?_
    rw [Path.ofString, Text.splitString, hs, map_append, filter_append]
    exact mem_append_left _ hm
  rw [hofString, Path.join]
  split
  · exact ⟨_, _, stem, rfl, Path.rootOf_cases _, hnew, hstem⟩
  · refine ⟨p.root, p.parts ++ _, stem, by rw [append_assoc], hfront.1, fun name hm => ?_, hstem⟩
    exact (mem_append.mp hm).elim (hfront.2 name) (hnew name)

/-- The file of a module ends in `.py`. -/
theorem modulePath_last (fullName : String) :
    ∃ stem, (modulePath fullName).parts.getLast? = some (String.ofList (stem ++ ".py".toList)) := by
  obtain ⟨_, front, stem, he, -⟩ := exists_modulePath fullName
  exact ⟨stem, by rw [he, getLast?_concat]⟩

theorem plain_modulePath (fullName : String) : (modulePath fullName).Plain := by
  obtain ⟨root, front, stem, he, hroot, hfront, -, hslash⟩ := exists_modulePath fullName
  rw [he]
  refine ⟨hroot, fun name hm => ?_⟩
  rcases mem_append.mp hm with hm | hm
  · exact (hfront name hm).1
  · obtain rfl := mem_singleton.mp hm
    refine ⟨ofList_append_py_ne stem (by decide), ofList_append_py_ne stem (by decide),
      ofList_append_py_ne stem (by decide), ?_⟩
    rw [String.toList_ofList, mem_append, not_or]
    exact ⟨hslash, by decide⟩

/-- A file of a module is never one of the directories of another. -/
theorem modulePath_not_prefix (a b : String) :
    ¬ (modulePath a).parts <+: (modulePath b).parts.dropLast := by
  obtain ⟨_, front, stem, ha, -⟩ := exists_modulePath a
  obtain ⟨_, front', stem', hb, -, hdotless, -⟩ := exists_modulePath b
  rw [ha, hb, dropLast_concat]
  intro hpre
  have hmem := hpre.subset (mem_append_right front (mem_singleton.mpr rfl))
  refine (hdotless _ hmem).2 ?_
  rw [String.toList_ofList]
  exact mem_append_right _ (by decide)

end Avroc
