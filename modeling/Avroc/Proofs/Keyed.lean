/-!
# Keyed lists

Lists of values under keys.  A registry, a directory, the members of an object, the inputs of a
cache entry and the failures of a batch are such lists, and each has a value set in the same way: in
place of the one under its key, or at the end.
-/

namespace Avroc

open List

variable {κ β : Type} [DecidableEq κ] {key : κ} {v : β} {x : κ × β} {entries : List (κ × β)}

/-- The list with a value under a key, in place of the one that is there or at the end. -/
def putKey (key : κ) (v : β) : List (κ × β) → List (κ × β)
  | [] => [(key, v)]
  | x :: rest => if x.1 = key then (x.1, v) :: rest else x :: putKey key v rest

theorem mem_putKey (h : x ∈ putKey key v entries) : x = (key, v) ∨ x ∈ entries := by
  induction entries with
  | nil => exact .inl (mem_singleton.mp h)
  | cons y entries ih =>
    rw [putKey] at h
    split at h
    · rename_i hk
      rcases mem_cons.mp h with rfl | h
      · exact .inl (by rw [hk])
      · exact .inr (mem_cons_of_mem _ h)
    · rcases mem_cons.mp h with rfl | h
      · exact .inr mem_cons_self
      · exact (ih h).imp_right (mem_cons_of_mem _)

/-- A key that is not there goes to the end. -/
theorem putKey_of_new (h : ∀ x ∈ entries, x.1 ≠ key) :
    putKey key v entries = entries ++ [(key, v)] := by
  induction entries with
  | nil => rfl
  | cons y entries ih =>
    rw [forall_mem_cons] at h
    rw [putKey, if_neg h.1, ih h.2, cons_append]

/-- The value that is set last stays. -/
theorem putKey_putKey {u : β} : putKey key v (putKey key u entries) = putKey key v entries := by
  induction entries with
  | nil => simp [putKey]
  | cons y entries ih => by_cases hk : y.1 = key <;> simp [putKey, hk, ih]

/-- A key that is there stays where it is. -/
theorem keys_putKey_of_mem (h : key ∈ entries.map (·.1)) :
    (putKey key v entries).map (·.1) = entries.map (·.1) := by
  induction entries with
  | nil => cases h
  | cons y entries ih =>
    rw [putKey]
    split
    · rfl
    · rename_i hk
      rw [map_cons, map_cons, ih ((mem_cons.mp h).resolve_left (Ne.symm hk))]

theorem mem_keys_putKey {k : κ} :
    k ∈ (putKey key v entries).map (·.1) ↔ k = key ∨ k ∈ entries.map (·.1) := by
  induction entries with
  | nil => simp [putKey]
  | cons y entries ih =>
    rw [putKey]
    split
    · rename_i hk
      simp [← hk]
    · rw [map_cons, mem_cons, ih, map_cons, mem_cons]
      exact or_left_comm

theorem nodup_putKey (h : (entries.map (·.1)).Nodup) :
    ((putKey key v entries).map (·.1)).Nodup := by
  induction entries with
  | nil => simp [putKey]
  | cons y entries ih =>
    rw [map_cons, nodup_cons] at h
    rw [putKey]
    split
    · exact nodup_cons.mpr h
    · rename_i hk
      rw [map_cons, nodup_cons, mem_keys_putKey, not_or]
      exact ⟨⟨hk, h.1⟩, ih h.2⟩

section
variable [BEq κ] [LawfulBEq κ]

theorem lookup_cons_ite (k key : κ) (v : β) (entries : List (κ × β)) :
    ((k, v) :: entries).lookup key = if key = k then some v else entries.lookup key := by
  by_cases h : key = k
  · simp [h]
  · simp [lookup_cons, h, beq_eq_false_iff_ne.mpr h]

theorem lookup_putKey (k : κ) :
    (putKey key v entries).lookup k = if k = key then some v else entries.lookup k := by
  induction entries with
  | nil => rw [putKey, lookup_cons_ite]
  | cons y entries ih =>
    rw [putKey]
    split
    · rename_i hk
      rw [show y = (y.1, y.2) from rfl, lookup_cons_ite, lookup_cons_ite, ← hk]
      split <;> rfl
    · rename_i hk
      rw [show y = (y.1, y.2) from rfl, lookup_cons_ite, lookup_cons_ite, ih]
      split
      · rename_i h
        rw [if_neg (h ▸ hk)]
      · rfl

end

/-- Where no key stands twice, every entry is found. -/
theorem lookup_eq_some_of_mem {κ : Type} [BEq κ] [LawfulBEq κ] {entries : List (κ × β)}
    {x : κ × β} (h : (entries.map (·.1)).Nodup) (hx : x ∈ entries) :
    entries.lookup x.1 = some x.2 := by
  obtain ⟨l₁, l₂, rfl⟩ := append_of_mem hx
  rw [map_append, map_cons, nodup_append] at h
  refine lookup_eq_some_iff.mpr ⟨l₁, l₂, rfl, fun y hy => ?_⟩
  exact bne_iff_ne.mpr (h.2.2 y.1 (mem_map_of_mem hy) x.1 mem_cons_self).symm

end Avroc
