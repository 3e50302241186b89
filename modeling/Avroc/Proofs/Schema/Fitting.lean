import Avroc.Proofs.Json.Members
import Avroc.Schema.Default

/-!
# The values of a type

A record may hold itself, so the values of a type are told by rules, and not by going through the
type.  The check that a value fits follows the value; only a union leaves the value as it is.

* `Json.fits_iff_belongs` : **every check ends, and accepts the values of the type.**
-/

namespace Avroc.Json

open List

variable {c : Catalog} {v : Json} {t u : Schema}

/-! ### Parts of a value -/

theorem itemTests_eq (c : Catalog) (items : List Json) :
    itemTests c items = items.map (fits c) := by
  induction items with
  | nil => rfl
  | cons v items ih => rw [itemTests, ih, map_cons]

theorem memberTests_eq (c : Catalog) (members : Members) :
    memberTests c members = members.map fun m => (m.1, fits c m.2) := by
  induction members with
  | nil => rfl
  | cons m members ih => rw [memberTests, ih, map_cons]

theorem lookup_memberTests (c : Catalog) (members : Members) (key : String) :
    (memberTests c members).lookup key = (members.get? key).map (fits c) := by
  rw [memberTests_eq, Members.get?]
  induction members with
  | nil => rfl
  | cons m members ih =>
    rw [map_cons, lookup_cons, show m = (m.1, m.2) from rfl, lookup_cons]
    cases key == m.1 with
    | true => rfl
    | false => exact ih

/-- The items of the value as tests on types; only lists have items. -/
def ownItems (c : Catalog) : Json → List TypeTest
  | array items => itemTests c items
  | _ => []

/-- The members of the value as tests on types; only objects have members. -/
def ownMembers (c : Catalog) : Json → List (String × TypeTest)
  | object members => memberTests c members
  | _ => []

/-- A value is held against the type that a union starts with. -/
theorem fits_eq_true_iff : v.fits c t = true ↔
    ∃ u, t.leading = some u ∧ v.fitsWith c (v.ownItems c) (v.ownMembers c) u = true := by
  cases v <;> simp only [fits, ownItems, ownMembers] <;> cases t.leading <;> simp

/-! ### Rules and questions -/

/-- The value belongs to the type.  A union has the values of its first branch; an object belongs
to a record if the fields that it gives belong to their types and the others have a default. -/
inductive Belongs (c : Catalog) : Json → Schema → Prop
  | null {props} : Belongs c null (.primitive .null props)
  | bool {b props} : Belongs c (bool b) (.primitive .boolean props)
  | int {n kind props} : kind ∈ [.int, .long, .float, .double] →
      Belongs c (int n) (.primitive kind props)
  | real {x kind props} : kind ∈ [.float, .double] → Belongs c (real x) (.primitive kind props)
  | string {s kind props} : kind ∈ [.bytes, .string] →
      Belongs c (string s) (.primitive kind props)
  | fixed {s id size} : (c.definition id).body = .fixed size → Belongs c (string s) (.named id)
  | enum {s id symbols default} : (c.definition id).body = .enum symbols default → s ∈ symbols →
      Belongs c (string s) (.named id)
  | array {items type props} : (∀ v ∈ items, Belongs c v type) →
      Belongs c (array items) (.array type props)
  | map {members type props} : (∀ m ∈ members, Belongs c m.2 type) →
      Belongs c (object members) (.map type props)
  | union {v branch rest} : Belongs c v branch → Belongs c v (.union (branch :: rest))
  | record {members id isError fields} : (c.definition id).body = .record isError fields →
      (∀ f ∈ fields, ∀ v, Members.get? members f.name = some v → Belongs c v f.type) →
      (∀ f ∈ fields, Members.get? members f.name = none → f.default.isSome = true) →
      Belongs c (object members) (.named id)

/-- The check of the second pair asks whether the value of the first one belongs to its type. -/
inductive Asks (c : Catalog) : Json × Schema → Json × Schema → Prop
  | item {v items type props} : v ∈ items → Asks c (v, type) (array items, .array type props)
  | value {m members type props} : m ∈ members →
      Asks c (m.2, type) (object members, .map type props)
  | branch {v branch rest} : Asks c (v, branch) (v, .union (branch :: rest))
  | field {v members id isError fields f} : (c.definition id).body = .record isError fields →
      f ∈ fields → Members.get? members f.name = some v →
      Asks c (v, f.type) (object members, .named id)

/-- No check asks forever, whatever the types refer to: each question is about a part of the value,
or about a branch of the union and the same value. -/
theorem wellFounded_asks (c : Catalog) : WellFounded (Asks c) := by
  have hmember : ∀ {m : String × Json} {members : Members}, m ∈ members →
      sizeOf m.2 < sizeOf (object members) := by
    intro m members hm
    have := sizeOf_lt_of_mem hm
    rw [Prod.mk.sizeOf_spec] at this
    rw [object.sizeOf_spec]
    omega
  refine Subrelation.wf (fun {q r} h => ?_) (InvImage.wf
    (fun q : Json × Schema => (sizeOf q.1, sizeOf q.2)) (Prod.lex Nat.lt_wfRel Nat.lt_wfRel).wf)
  cases h with
  | @item v items _ _ hv =>
    have : sizeOf v < sizeOf (array items) := by
      have := sizeOf_lt_of_mem hv
      rw [array.sizeOf_spec]
      omega
    exact .left _ _ this
  | value hm => exact .left _ _ (hmember hm)
  | @branch v branch rest =>
    have : sizeOf branch < sizeOf (Schema.union (branch :: rest)) := by
      rw [Schema.union.sizeOf_spec, cons.sizeOf_spec]
      omega
    exact .right _ this
  | field _ _ hm => exact .left _ _ (hmember (Members.mem_of_get? hm))

/-- The induction is on what is asked. -/
theorem belongs_of_fits (h : v.fits c t = true) : Belongs c v t := by
  induction hq : (v, t) using (wellFounded_asks c).induction generalizing v t with
  | _ q ih =>
  subst hq
  replace ih : ∀ x u, Asks c (x, u) (v, t) → x.fits c u = true → Belongs c x u :=
    fun x u ha hx => ih (x, u) ha hx rfl
  obtain ⟨u, hl, hu⟩ := fits_eq_true_iff.mp h
  cases t with
  | union branches =>
    cases branches with
    | nil => cases hl
    | cons branch rest => exact .union (ih v branch .branch (fits_eq_true_iff.mpr ⟨u, hl, hu⟩))
  | primitive kind props =>
    cases hl
    cases v <;> cases kind <;> cases hu <;> constructor <;> decide
  | array type props =>
    cases hl
    cases v <;> try cases hu
    simp only [fitsWith, ownItems, itemTests_eq, all_map, all_eq_true] at hu
    exact .array fun x hx => ih x type (.item hx) (hu x hx)
  | map type props =>
    cases hl
    cases v <;> try cases hu
    simp only [fitsWith, ownMembers, memberTests_eq, all_map, all_eq_true] at hu
    exact .map fun m hm => ih m.2 type (.value hm) (hu m hm)
  | named id =>
    cases hl
    simp only [fitsWith] at hu
    split at hu
    · exact .fixed ‹_›
    · exact .enum ‹_› (by simpa using hu)
    · rename_i hb
      simp only [fieldsFit, all_eq_true, ownMembers, lookup_memberTests] at hu
      refine .record hb (fun f hf x hx => ?_) (fun f hf hn => ?_)
      · have hfit := hu f hf
        rw [hx] at hfit
        exact ih x f.type (.field hb hf hx) hfit
      · have hfit := hu f hf
        rwa [hn] at hfit
    · cases hu

theorem Belongs.fits (h : Belongs c v t) : v.fits c t = true := by
  induction h with
  | union _ ih =>
    rw [fits_eq_true_iff] at ih ⊢
    exact ih
  | null | bool => rfl
  | int hk | real hk | string hk =>
    refine fits_eq_true_iff.mpr ⟨_, rfl, ?_⟩
    simp only [mem_cons, not_mem_nil, or_false] at hk
    rcases hk with rfl | rfl | rfl | rfl <;> rfl
  | fixed hb =>
    refine fits_eq_true_iff.mpr ⟨_, rfl, ?_⟩
    simp only [fitsWith, hb]
  | enum hb hs =>
    refine fits_eq_true_iff.mpr ⟨_, rfl, ?_⟩
    simpa only [fitsWith, hb, contains_iff_mem] using hs
  | array _ ih =>
    refine fits_eq_true_iff.mpr ⟨_, rfl, ?_⟩
    simp only [fitsWith, ownItems, itemTests_eq, all_map, all_eq_true]
    exact ih
  | map _ ih =>
    refine fits_eq_true_iff.mpr ⟨_, rfl, ?_⟩
    simp only [fitsWith, ownMembers, memberTests_eq, all_map, all_eq_true]
    exact ih
  | @record members id isError fields hb _ hdefault ih =>
    refine fits_eq_true_iff.mpr ⟨_, rfl, ?_⟩
    simp only [fitsWith, hb, fieldsFit, all_eq_true, ownMembers, lookup_memberTests]
    intro f hf
    cases hm : Members.get? members f.name with
    | none => exact hdefault f hf hm
    | some x => exact ih f hf x hm

/-- **Every check ends, and accepts the values of the type**, those that the rules give. -/
theorem fits_iff_belongs (c : Catalog) : WellFounded (Asks c) ∧
    ∀ v t, v.fits c t = true ↔ Belongs c v t :=
  ⟨wellFounded_asks c, fun _ _ => ⟨belongs_of_fits, Belongs.fits⟩⟩

end Avroc.Json
