import Avroc.Build.Batch
import Avroc.Proofs.Module.Places
import Avroc.Proofs.Registry.Closure

/-!
# The layout of modules and of sources

The modules of types have paths of their own, and the layout of the sources mirrors them.  The two
are computed apart: a module path joins the parts of a full name, and the check of the layout puts
slashes for its dots.

* `layoutError?_eq_none_iff` : **the layout is right exactly if** the source lies where the module
  does, with the extension of sources.
* `modules_mirror_sources` : **the modules of all types that can be read.**
-/

namespace Avroc

open List

variable {fullName root source : String} {relative : Path}

/-- The parts of a full name between slashes. -/
theorem replaceAll_dot (cs : List Char) :
    Text.replaceAll ['.'] ['/'] cs = ['/'].intercalate (Text.splitAtEach '.' cs) := by
  refine Text.splitAtEach_induction
    (P := fun cs parts => Text.replaceFrom ['.'] ['/'] 0 cs = ['/'].intercalate parts) rfl
    (fun cs part parts ih => ?_) (fun c cs part parts hc ih => ?_) cs
  · rw [intercalate_cons_cons, ← ih]
    simp [Text.replaceFrom]
  · cases parts <;> simp [Text.replaceFrom, ih, Ne.symm hc, intercalate_cons_cons]

theorem intercalate_concat_append (sep : List Char) (front : List (List Char)) (a b : List Char) :
    sep.intercalate (front ++ [a ++ b]) = sep.intercalate (front ++ [a]) ++ b := by
  induction front with
  | nil => simp
  | cons part front ih =>
    obtain ⟨x, xs, hx⟩ := exists_cons_of_ne_nil (concat_ne_nil a front)
    obtain ⟨y, ys, hy⟩ := exists_cons_of_ne_nil (concat_ne_nil (a ++ b) front)
    rw [cons_append, cons_append, hx, hy, intercalate_cons_cons, intercalate_cons_cons, ← hx, ← hy,
      ih, append_assoc _ _ b]

theorem properName_of_isLegalName {name : String} (h : isLegalName name = true) :
    ProperName name :=
  (DotlessName.of_chars (ne_empty_of_isLegalName h) (slash_notMem_of_isLegalName h)
    (not_dot_mem_of_isLegalName h)).1

/-- The text that the check of the layout expects is that of the path of the source. -/
theorem text_expected {front : List String} {stem : String} (h : LegalFullName fullName)
    (hparts : Text.splitString '.' fullName = front ++ [stem]) :
    let source : Path := ⟨"", front ++ [stem ++ ".avsc"]⟩
    source.text = Text.replaceWord "." "/" fullName ++ ".avsc" ∧ source.Spelled := by
  have hlegal : ∀ part ∈ front ++ [stem], isLegalName part = true := by rwa [← hparts]
  have hchars : Text.splitAtEach '.' fullName.toList = (front ++ [stem]).map String.toList := by
    rw [← hparts, Text.splitString, map_map]
    simp [Function.comp_def]
  constructor
  · have hexpected : (Text.replaceWord "." "/" fullName).toList =
        ['/'].intercalate ((front ++ [stem]).map String.toList) := by
      rw [← hchars, ← replaceAll_dot]
      exact String.toList_ofList
    rw [← String.toList_inj, Path.toList_text (by simp), Path.partsText, String.toList_append,
      hexpected, map_append, map_append, map_singleton, map_singleton, String.toList_append,
      intercalate_concat_append]
    rfl
  · refine ⟨.inl rfl, forall_mem_append.mpr ⟨fun part hp => ?_, forall_mem_singleton.mpr ?_⟩⟩
    · exact .inr (properName_of_isLegalName (hlegal part (mem_append_left _ hp)))
    · refine ProperPart.iff.mpr ⟨append_ne_of_length _ (by decide),
        append_ne_of_length _ (by decide), ?_⟩
      rw [String.toList_append, mem_append, not_or]
      exact ⟨slash_notMem_of_isLegalName (hlegal stem (by simp)), by decide⟩

theorem Path.spelled_relativeTo?
    (h : Path.relativeTo? (.ofString root) (.ofString source) = some relative) :
    relative.Spelled := by
  rw [relativeTo?] at h
  split at h
  · obtain rfl := Option.some.inj h
    exact ⟨.inl rfl, fun part hp => (properPart_of_ofString (mem_of_mem_drop hp)).1⟩
  · cases h

/-- **The layout is right exactly if** the source lies where the module does, with the extension of
sources. -/
theorem layoutError?_eq_none_iff (h : LegalFullName fullName)
    (hunder : Path.relativeTo? (.ofString root) (.ofString source) = some relative) :
    layoutError? (.ofString root) (.ofString source) fullName = none ↔ ∃ front stem,
      modulePath fullName = ⟨"", front ++ [stem ++ ".py"]⟩ ∧
        relative = ⟨"", front ++ [stem ++ ".avsc"]⟩ := by
  obtain ⟨front, stem, hparts, hmodule⟩ := h.exists_parts
  obtain ⟨htext, hspelled⟩ := text_expected h hparts
  have hrelative := Path.spelled_relativeTo? hunder
  rw [layoutError?, hunder, Option.getD_some,
    show SourceFormat.schema.extension = ".avsc" from rfl, ← htext]
  constructor
  · intro he
    split at he
    · rename_i heq
      refine ⟨front, stem, hmodule, ?_⟩
      rw [← hrelative.ofString_text, heq, hspelled.ofString_text]
    · cases he
  · rintro ⟨front', stem', hmodule', rfl⟩
    rw [hmodule, Path.mk.injEq] at hmodule'
    obtain ⟨rfl, hlast⟩ := append_inj' hmodule'.2 rfl
    have hstem : stem = stem' := by simpa using hlast
    rw [if_pos (by rw [hstem])]

/-- The full name is that of a type in a registry that started empty, after documents of any kind
have been read in it with names checked. -/
def AcceptedName (fullName : String) : Prop :=
  ∃ (calls : List ParseCall) (s : Scope), s.registry.entries = [] ∧ s.registry.checksNames = true ∧
    ∃ id ∈ (ParseCall.runAll calls s).2.registry.types,
      (ParseCall.runAll calls s).2.catalog.fullName id = fullName

theorem AcceptedName.legal (h : AcceptedName fullName) : LegalFullName fullName := by
  obtain ⟨calls, s, hempty, hc, id, hid, rfl⟩ := h
  exact (ParseCall.lawful_runAll hempty hc calls id hid).1.named.legalFullName

/-- **The modules of types lie apart below the destination, where the layout wants their sources.**
The path of a module is relative and goes down only; different types have different paths, none of
which is a directory on the way to another; and a source below its root is well placed exactly if
its path there is that of the module with the extension of sources. -/
theorem modules_mirror_sources {name : String} (h : AcceptedName name) :
    ((modulePath name).root = "" ∧
      ∀ part ∈ (modulePath name).parts, part ≠ "" ∧ part ≠ "." ∧ part ≠ "..") ∧
    (∀ other, AcceptedName other → other ≠ name → modulePath other ≠ modulePath name ∧
      ¬ (modulePath other).parts <+: (modulePath name).parts) ∧
    ∀ (root source : String) (relative : Path),
      Path.relativeTo? (.ofString root) (.ofString source) = some relative →
      (layoutError? (.ofString root) (.ofString source) name = none ↔ ∃ front stem,
        modulePath name = ⟨"", front ++ [stem ++ ".py"]⟩ ∧
          relative = ⟨"", front ++ [stem ++ ".avsc"]⟩) := by
  have hlegal := h.legal
  refine ⟨⟨by rw [modulePath_of_legal hlegal], fun part hp => ?_⟩, fun other ho hne => ?_,
    fun root source relative hunder => layoutError?_eq_none_iff hlegal hunder⟩
  · obtain ⟨he, hd, hdots, -⟩ := (plain_modulePath name).parts part hp
    exact ⟨he, hd, hdots⟩
  · have hdiffer : modulePath other ≠ modulePath name :=
      fun he => hne (modulePath_injective ho.legal hlegal he)
    refine ⟨hdiffer, fun hpre => ?_⟩
    obtain ⟨front, stem, -, hmodule⟩ := hlegal.exists_parts
    obtain ⟨_, _, -, hother⟩ := ho.legal.exists_parts
    have hdirs := modulePath_not_prefix other name
    rw [hmodule] at hpre hdirs hdiffer
    rw [dropLast_concat] at hdirs
    rcases prefix_concat_iff.mp hpre with he | hpre
    · refine hdiffer ?_
      rw [← he, hother]
    · exact hdirs hpre

theorem modules_mirror_sources_siblings :
    (AcceptedName "a.B" ∧ AcceptedName "a.C") ∧
      layoutError? (.ofString "src") (.ofString "src/a/B.avsc") "a.B" = none ∧
      ¬ (modulePath "a.C").parts <+: (modulePath "a.B").parts := by
  have hb : AcceptedName "a.B" :=
    ⟨[.schema "\x7b\"type\":\"fixed\",\"name\":\"a.B\",\"size\":1\x7d"], .initial true true, rfl,
      rfl, ⟨0⟩, by decide +kernel⟩
  have hc : AcceptedName "a.C" :=
    ⟨[.idl ⟨.directory [] 0, [], 0, []⟩ none "@namespace(\"a\") protocol P \x7b fixed C(1); \x7d"],
      .initial true true, rfl, rfl, ⟨0⟩, by decide +kernel⟩
  obtain ⟨-, hapart, hlayout⟩ := modules_mirror_sources hb
  exact ⟨⟨hb, hc⟩, (hlayout "src" "src/a/B.avsc" ⟨"", ["a", "B.avsc"]⟩ (by decide +kernel)).mpr
    ⟨["a"], "B", by decide +kernel, by decide +kernel⟩, (hapart "a.C" hc (by decide)).2⟩

end Avroc
