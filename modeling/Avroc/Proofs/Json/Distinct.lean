import Avroc.Json.Reader
import Avroc.Proofs.Json.Members

/-!
# Objects that are read have different keys

* `Json.distinct_of_parse` : **the value of a text has no such object.**
-/

namespace Avroc.Json

open List

variable {here after : Place} {v : Json}

/-- No object in the value has a key twice. -/
inductive Distinct : Json → Prop
  | null : Distinct .null
  | bool (b : Bool) : Distinct (.bool b)
  | int (n : Int) : Distinct (.int n)
  | real (x : Binary64) : Distinct (.real x)
  | string (s : String) : Distinct (.string s)
  | array {items : List Json} : (∀ v ∈ items, Distinct v) → Distinct (.array items)
  | object {members : List (String × Json)} : (members.map (·.1)).Nodup →
      (∀ m ∈ members, Distinct m.2) → Distinct (.object members)

theorem distinct_scanNumber (h : scanNumber here = .ok (v, after)) :
    v.Distinct := by
  unfold scanNumber at h
  dsimp only at h
  generalize (if (splitSign here.rest).1 then 1 else 0) = signLength at h
  split at h
  · cases h
  split at h
  · split at h
    · cases h
    · obtain ⟨rfl, -⟩ := Prod.mk.inj (Except.ok.inj h)
      constructor
  · obtain ⟨rfl, -⟩ := Prod.mk.inj (Except.ok.inj h)
    constructor

theorem distinct_scanWord (h : scanWord here = .ok (v, after)) :
    v.Distinct := by
  unfold scanWord at h
  iterate 6
    split at h
    · obtain ⟨rfl, -⟩ := Prod.mk.inj (Except.ok.inj h)
      constructor
  exact distinct_scanNumber h

/-- What is read with so much fuel: a value, items and members. -/
theorem distinct_scan (fuel : Nat) :
    (∀ here v after, scanValue fuel here = .ok (v, after) → v.Distinct) ∧
    (∀ here items after, scanItems fuel here = .ok (items, after) → ∀ v ∈ items, v.Distinct) ∧
    ∀ here members after, scanMembers fuel here = .ok (members, after) →
      ∀ m ∈ members, m.2.Distinct := by
  induction fuel with
  | zero => refine ⟨?_, ?_, ?_⟩ <;> intro _ _ _ h <;> cases h
  | succ fuel ih =>
    obtain ⟨hvalue, hitems, hmembers⟩ := ih
    refine ⟨fun here v after h => ?_, fun here items after h => ?_, fun here members after h => ?_⟩
    · rw [scanValue] at h
      split at h
      · split at h
        · cases h
        · cases h
          exact .string _
      · dsimp only at h
        split at h
        · cases h
          exact .array (forall_mem_nil _)
        · split at h
          · cases h
          · cases h
            exact .array (hitems _ _ _ ‹_›)
      · dsimp only at h
        split at h
        · cases h
          exact .object nodup_nil (forall_mem_nil _)
        · split at h
          · cases h
          · rename_i hread
            cases h
            have hnil : (([] : Members).map (·.1)).Nodup := nodup_nil
            refine .object (Members.nodup_update hnil _) fun m hm => ?_
            exact hmembers _ _ _ hread m
              ((Members.mem_of_mem_update hm).resolve_right not_mem_nil)
      · exact distinct_scanWord h
    · rw [scanItems] at h
      split at h
      · cases h
      · rename_i hread
        have hfirst := hvalue _ _ _ hread
        dsimp only at h
        split at h
        · cases h
          exact forall_mem_singleton.mpr hfirst
        · split at h
          · cases h
          · cases h
            exact forall_mem_cons.mpr ⟨hfirst, hitems _ _ _ ‹_›⟩
        · cases h
    · rw [scanMembers] at h
      split at h
      · split at h
        · cases h
        · dsimp only at h
          split at h
          · split at h
            · cases h
            · rename_i hread
              have hfirst := hvalue _ _ _ hread
              split at h
              · cases h
                exact forall_mem_singleton.mpr hfirst
              · split at h
                · cases h
                · cases h
                  exact forall_mem_cons.mpr ⟨hfirst, hmembers _ _ _ ‹_›⟩
              · cases h
          · cases h
      · cases h

/-- **The objects in the value of a text have different keys.** -/
theorem distinct_of_parse {text : String} (h : parse text = .ok v) : v.Distinct := by
  rw [parse, parseChars] at h
  split at h
  · cases h
  · split at h
    · cases h
    · rename_i hread
      dsimp only at h
      split at h
      · cases h
        exact (distinct_scan _).1 _ _ _ hread
      · cases h

end Avroc.Json
