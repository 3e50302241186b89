import Mathlib.Data.List.Induction
import Mathlib.Data.List.Nodup

/-!
# First occurrences

A list with every member only where it occurs first.

* `nodup_eraseDups`, `eraseDups_of_nodup` : it has no member twice, and a list that has none is left
  alone.
-/

namespace Avroc

open List

variable {α β : Type} [DecidableEq α] [DecidableEq β]

theorem eraseDups_concat (as : List α) (a : α) :
    (as ++ [a]).eraseDups = if a ∈ as then as.eraseDups else as.eraseDups ++ [a] := by
  rw [eraseDups_append]
  by_cases h : a ∈ as <;> simp [List.removeAll, h, eraseDups_cons]

theorem nodup_eraseDups (as : List α) : as.eraseDups.Nodup := by
  induction as using List.reverseRecOn with
  | nil => exact nodup_nil
  | append_singleton as a ih =>
    rw [eraseDups_concat]
    split
    · exact ih
    · rename_i ha
      refine nodup_append.mpr ⟨ih, by simp, fun b hb c hc he => ha ?_⟩
      rw [← mem_singleton.mp hc, ← he]
      exact mem_eraseDups.mp hb

theorem eraseDups_of_nodup {as : List α} (h : as.Nodup) : as.eraseDups = as := by
  induction as using List.reverseRecOn with
  | nil => rfl
  | append_singleton as a ih =>
    obtain ⟨has, -, hdisjoint⟩ := nodup_append.mp h
    rw [eraseDups_concat, if_neg, ih has]
    exact fun ha => hdisjoint a ha a (mem_singleton.mpr rfl) rfl

/-- What comes from members that have been there is dropped anyway. -/
theorem eraseDups_flatMap (f : α → List β) (as : List α) :
    (as.eraseDups.flatMap f).eraseDups = (as.flatMap f).eraseDups := by
  induction as using List.reverseRecOn with
  | nil => rfl
  | append_singleton as a ih =>
    rw [eraseDups_concat, List.flatMap_append, flatMap_singleton, eraseDups_append]
    split
    · rename_i ha
      have hdropped : (f a).removeAll (as.flatMap f) = [] := by
        refine filter_eq_nil_iff.mpr fun b hb => ?_
        simpa using ⟨a, ha, hb⟩
      rw [ih, hdropped, eraseDups_nil, append_nil]
    · have hsame : (f a).removeAll (as.eraseDups.flatMap f) = (f a).removeAll (as.flatMap f) := by
        simp [List.removeAll]
      rw [List.flatMap_append, flatMap_singleton, eraseDups_append, ih, hsame]

end Avroc
