import Avroc.Json.Value
import Avroc.Proofs.Keyed

/-!
# Members of objects

A list of members may hold a key twice; a look-up finds the first.  `Members.tidy` keeps the first
member of every key, and that is what is left of attributes once they have gone through a
document.

* `Members.withMissing_eq` : completing members by others that share no key with them appends the
  others, each key once.
* `Json.nestedInduction` : induction over JSON values through the lists of their parts.
-/

namespace Avroc

open List

variable {v : Json} {keys : List String} {extra ms : Members} {key : String} {m : String × Json}

namespace Members

/-- The members, each key once. -/
def tidy (members : Members) : Members :=
  withMissing [] members

/-- No member has one of the keys. -/
def Avoids (members : Members) (keys : List String) : Prop :=
  ∀ m ∈ members, m.1 ∉ keys

theorem get?_cons (k : String) (v : Json) (ms : Members) (key : String) :
    get? ((k, v) :: ms) key = if key = k then some v else ms.get? key :=
  lookup_cons_ite k key v ms

@[simp] theorem get?_nil (key : String) : get? [] key = none := rfl

theorem get?_append (ms ns : Members) (key : String) :
    get? (ms ++ ns) key = (ms.get? key).or (ns.get? key) :=
  lookup_append

theorem get?_eq_none_iff : ms.get? key = none ↔ ∀ m ∈ ms, m.1 ≠ key := by
  induction ms with
  | nil => simp
  | cons m ms ih =>
    rw [get?_cons]
    by_cases h : key = m.1
    · simp [h]
    · rw [if_neg h, ih, forall_mem_cons]
      exact ⟨fun hms => ⟨Ne.symm h, hms⟩, fun hms => hms.2⟩

/-- A member that is found is one of the members. -/
theorem mem_of_get? (h : ms.get? key = some v) : (key, v) ∈ ms := by
  induction ms with
  | nil => cases h
  | cons m ms ih =>
    rw [get?_cons] at h
    split at h
    · rename_i hk
      cases h
      exact hk ▸ mem_cons_self
    · exact mem_cons_of_mem _ (ih h)

theorem insert_eq_putKey (ms : Members) (key : String) (v : Json) :
    ms.insert key v = putKey key v ms := by
  induction ms with
  | nil => rfl
  | cons m ms ih => rw [insert, putKey, ih]

theorem insert_of_get?_none (h : ms.get? key = none) : ms.insert key v = ms ++ [(key, v)] := by
  rw [insert_eq_putKey, putKey_of_new (get?_eq_none_iff.mp h)]

theorem mem_of_mem_update (h : m ∈ update ms extra) : m ∈ extra ∨ m ∈ ms := by
  induction extra generalizing ms with
  | nil => exact .inr h
  | cons x extra ih =>
    obtain ⟨key, v⟩ := x
    rcases ih h with h | h
    · exact .inl (mem_cons_of_mem _ h)
    · replace h : m ∈ ms.insert key v := h
      rw [insert_eq_putKey] at h
      rcases mem_putKey h with rfl | h
      · exact .inl mem_cons_self
      · exact .inr h

/-- Members that are set one after the other have different keys. -/
theorem nodup_update (h : (ms.map (·.1)).Nodup) (extra : Members) :
    ((update ms extra).map (·.1)).Nodup := by
  induction extra generalizing ms with
  | nil => exact h
  | cons m extra ih =>
    refine ih ?_
    show ((ms.insert m.1 m.2).map (·.1)).Nodup
    rw [insert_eq_putKey]
    exact nodup_putKey h

theorem withMissing_cons (ms : Members) (k : String) (v : Json) (extra : Members) :
    withMissing ms ((k, v) :: extra) =
      withMissing (if ms.has k then ms else ms ++ [(k, v)]) extra := by
  show withMissing (if ms.has k then ms else ms.insert k v) extra = _
  split
  · rfl
  · rename_i h
    rw [insert_of_get?_none (by simpa [has] using h)]

/-- A look-up in completed members: the members come before those that complete them. -/
@[simp] theorem get?_withMissing (ms extra : Members) (key : String) :
    (withMissing ms extra).get? key = (ms.get? key).or (extra.get? key) := by
  induction extra generalizing ms with
  | nil => simp [withMissing]
  | cons e extra ih =>
    obtain ⟨k, v⟩ := e
    rw [withMissing_cons, ih, get?_cons]
    by_cases hk : key = k
    · subst hk
      cases h : ms.get? key with
      | none => simp [has, h, get?_append, get?_cons]
      | some v => simp [has, h]
    · cases h : ms.get? k with
      | none => simp [has, h, get?_append, get?_cons, hk]
      | some v => simp [has, h, hk]

@[simp] theorem get?_tidy (ms : Members) (key : String) : ms.tidy.get? key = ms.get? key := by
  simp [tidy]

/-- The keys of completed members are keys of either part. -/
theorem mem_withMissing (h : m ∈ withMissing ms extra) : m ∈ ms ∨ m ∈ extra := by
  induction extra generalizing ms with
  | nil => exact .inl h
  | cons e extra ih =>
    rw [withMissing_cons] at h
    rcases ih h with h | h
    · split at h
      · exact .inl h
      · rcases mem_append.mp h with h | h
        · exact .inl h
        · exact .inr (by simp_all)
    · exact .inr (mem_cons_of_mem _ h)

theorem Avoids.tidy (h : ms.Avoids keys) : ms.tidy.Avoids keys := by
  intro m hm
  rcases mem_withMissing hm with hm | hm
  · cases hm
  · exact h m hm

/-- Members that share no key with those in front are completed on their own. -/
theorem withMissing_append {acc : Members} (h : ∀ e ∈ extra, ms.get? e.1 = none) :
    withMissing (ms ++ acc) extra = ms ++ withMissing acc extra := by
  induction extra generalizing acc with
  | nil => rfl
  | cons e extra ih =>
    have he : ms.get? e.1 = none := h e mem_cons_self
    have ih := fun acc => @ih acc (fun x hx => h x (mem_cons_of_mem _ hx))
    rw [withMissing_cons, withMissing_cons]
    by_cases hacc : acc.has e.1
    · have : has (ms ++ acc) e.1 = true := by
        simpa [has, get?_append, he] using hacc
      rw [if_pos this, if_pos hacc, ih]
    · have : ¬ has (ms ++ acc) e.1 = true := by
        simpa [has, get?_append, he] using hacc
      rw [if_neg this, if_neg hacc, append_assoc, ih]

theorem withMissing_eq (h : ∀ e ∈ extra, ms.get? e.1 = none) :
    withMissing ms extra = ms ++ extra.tidy := by
  have happend : withMissing (ms ++ []) extra = ms ++ withMissing [] extra := withMissing_append h
  rwa [append_nil] at happend

/-- Completing goes from left to right. -/
theorem withMissing_withMissing (ms acc extra : Members) :
    withMissing ms (withMissing acc extra) = withMissing (withMissing ms acc) extra := by
  induction extra generalizing acc with
  | nil => rfl
  | cons e extra ih =>
    rw [withMissing_cons, withMissing_cons, ih]
    by_cases hacc : acc.has e.1
    · have : (withMissing ms acc).has e.1 = true := by
        simp only [has, get?_withMissing] at hacc ⊢
        cases ms.get? e.1 <;> simp_all
      rw [if_pos hacc, if_pos this]
    · rw [if_neg hacc]
      have : withMissing ms (acc ++ [e]) = withMissing (withMissing ms acc) [e] := by
        simp [withMissing, foldl_append]
      rw [this, withMissing_cons]
      rfl

theorem withMissing_tidy (ms extra : Members) :
    withMissing ms extra.tidy = withMissing ms extra :=
  withMissing_withMissing ms [] extra

@[simp] theorem tidy_tidy (ms : Members) : ms.tidy.tidy = ms.tidy :=
  withMissing_tidy [] ms

@[simp] theorem isEmpty_tidy (ms : Members) : ms.tidy.isEmpty = ms.isEmpty := by
  cases ms with
  | nil => rfl
  | cons m ms =>
    have h : get? (tidy (m :: ms)) m.1 = some m.2 := by
      rw [get?_tidy, get?_cons, if_pos rfl]
    cases ht : tidy (m :: ms) with
    | nil => rw [ht] at h; cases h
    | cons => rfl

theorem avoids_without (ms : Members) (keys : List String) : (ms.without keys).Avoids keys := by
  intro m hm
  simpa using (mem_filter.mp hm).2

theorem Avoids.get?_eq_none (h : ms.Avoids keys) (hk : key ∈ keys) : ms.get? key = none :=
  get?_eq_none_iff.mpr fun m hm he => h m hm (he ▸ hk)

/-- Under the keys the members are the own ones, and besides they are the extra ones. -/
structure Shows (ms own extra : Members) (keys : List String) : Prop where
  get? : ∀ {key : String}, key ∈ keys → ms.get? key = own.get? key
  without : ms.without keys = extra.tidy

/-- Members that have a meaning of their own, completed by others. -/
theorem shows_withMissing (h : ∀ key, key ∉ keys → ms.get? key = none) (h' : extra.Avoids keys) :
    (withMissing ms extra).Shows ms extra keys where
  get? hk := by rw [get?_withMissing, h'.get?_eq_none hk, Option.or_none]
  without := by
    rw [withMissing_eq fun e he => h e.1 (h' e he)]
    unfold without
    rw [filter_append, filter_eq_nil_iff.mpr, filter_eq_self.mpr, nil_append]
    · intro m hm
      simpa using h'.tidy m hm
    · intro m hm
      have hk : m.1 ∈ keys := Decidable.byContradiction fun hn =>
        get?_eq_none_iff.mp (h m.1 hn) m hm rfl
      simpa using hk

end Members

/-! ### Induction -/

namespace Json

/-- Induction over JSON values, with the hypothesis for every item and every member. -/
@[elab_as_elim]
theorem nestedInduction {P : Json → Prop} (null : P .null) (bool : ∀ b, P (.bool b))
    (int : ∀ n, P (.int n)) (real : ∀ x, P (.real x)) (string : ∀ s, P (.string s))
    (array : ∀ items, (∀ v ∈ items, P v) → P (.array items))
    (object : ∀ members, (∀ m ∈ members, P m.2) → P (.object members)) (v : Json) : P v := by
  refine Json.rec (motive_1 := P) (motive_2 := fun items => ∀ v ∈ items, P v)
    (motive_3 := fun members => ∀ m ∈ members, P m.2) (motive_4 := fun m => P m.2)
    null bool int real string (fun items => array items) (fun members => object members)
    ?_ ?_ ?_ ?_ (fun _ _ h => h) v
  · exact fun _ h => absurd h not_mem_nil
  · exact fun v items hv hitems => forall_mem_cons.mpr ⟨hv, hitems⟩
  · exact fun _ h => absurd h not_mem_nil
  · exact fun m members hm hmembers => forall_mem_cons.mpr ⟨hm, hmembers⟩

/-! ### Equality -/

theorem beqItems_iff {items others : List Json}
    (h : ∀ v ∈ items, ∀ other, v.beq other = true ↔ v = other) :
    beqItems items others = true ↔ items = others := by
  induction items generalizing others with
  | nil => cases others <;> simp [beqItems]
  | cons v items ih =>
    rw [forall_mem_cons] at h
    cases others with
    | nil => simp [beqItems]
    | cons other others => simp [beqItems, h.1 other, ih h.2]

theorem beqMembers_iff {members others : List (String × Json)}
    (h : ∀ m ∈ members, ∀ other, m.2.beq other = true ↔ m.2 = other) :
    beqMembers members others = true ↔ members = others := by
  induction members generalizing others with
  | nil => cases others <;> simp [beqMembers]
  | cons m members ih =>
    rw [forall_mem_cons] at h
    rcases others with _ | ⟨other, others⟩
    · simp [beqMembers]
    · simp [beqMembers, h.1 other.2, ih h.2, Prod.ext_iff]

theorem beq_iff_eq (v other : Json) : v.beq other = true ↔ v = other := by
  induction v using nestedInduction generalizing other with
  | null => cases other <;> simp [beq]
  | bool b => cases other <;> simp [beq]
  | int n => cases other <;> simp [beq]
  | real x => cases other <;> simp [beq]
  | string s => cases other <;> simp [beq]
  | array items ih => cases other <;> simp [beq, beqItems_iff ih]
  | object members ih => cases other <;> simp [beq, beqMembers_iff ih]

instance : LawfulBEq Json where
  eq_of_beq h := (beq_iff_eq _ _).mp h
  rfl := (beq_iff_eq _ _).mpr rfl

end Json

end Avroc
