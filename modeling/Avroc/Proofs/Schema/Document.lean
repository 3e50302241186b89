import Avroc.Proofs.Schema.Alike
import Avroc.Protocol.Basic

/-!
# Documents of alike types

A document shows a type and the definitions it leads to, so alike types have the same document.

The recursion that writes definitions is bounded by the number of definitions in the catalog.  At
every point of a document the bound is at least the number of definitions whose names have not
been written yet (`Catalog.unwritten`), so a definition is never cut short for lack of depth, and
two catalogs of different sizes give the same document.

* `Schema.document_alike` : alike types have the same document.
* `Schema.reachable_alike` : alike types over the same identities reach the same types.
-/

namespace Avroc

open List

variable {c c' : Catalog} {names : List String} {t u : Schema} {id a b : TypeId} {ρ : Matching}
  {depth : Nat} {P : List String → Prop}

/-! ### Agreement of documents -/

/-- The two ways of writing agree from all written names that satisfy `P`, and keep `P`. -/
def SameUnder {α : Type} (P : List String → Prop) (x y : Documenting α) : Prop :=
  ∀ names, P names → x.run names = y.run names ∧
    ∀ a names', x.run names = .ok (a, names') → P names'

namespace SameUnder

variable {α β : Type}

protected theorem pure (a : α) : SameUnder P (pure a) (pure a) := by
  intro names hn
  refine ⟨rfl, ?_⟩
  intro b names' h
  cases h
  exact hn

protected theorem bind {x y : Documenting α} {f g : α → Documenting β} (h : SameUnder P x y)
    (hf : ∀ a, SameUnder P (f a) (g a)) : SameUnder P (x >>= f) (y >>= g) := by
  intro names hn
  obtain ⟨he, hk⟩ := h names hn
  rw [StateT.run_bind, StateT.run_bind, ← he]
  cases hx : x.run names with
  | error e => exact ⟨rfl, fun a names' h => by cases h⟩
  | ok r => exact hf r.1 r.2 (hk r.1 r.2 hx)

/-- A step that leaves the written names alone agrees with itself. -/
protected theorem lift (x : Except Misuse α) :
    SameUnder P (liftM x : Documenting α) (liftM x) := by
  intro names hn
  refine ⟨rfl, ?_⟩
  intro a names' h
  cases x with
  | error e => cases h
  | ok b => cases h; exact hn

end SameUnder

theorem textMember_eq {key : String} {s s' : Option String} (h : givenText s = givenText s') :
    textMember key s = textMember key s' := by
  have hg : ∀ s, textMember key s = ((givenText s).map fun s => (key, Json.string s)).toList := by
    intro s
    cases s with
    | none => rfl
    | some s => by_cases hs : s = "" <;> simp [textMember, givenText, hs]
  rw [hg, hg, h]

theorem withMissing_congr (ms : Members) {p q : Members} (h : p.tidy = q.tidy) :
    Members.withMissing ms p = Members.withMissing ms q := by
  rw [← Members.withMissing_tidy ms p, h, Members.withMissing_tidy]

section
variable {m m' : Mention} (hm : ∀ a b, ρ a b → SameUnder P (m a) (m' b))
include hm

theorem Schema.documentWith_sameUnder (h : t.Alike ρ u) :
    SameUnder P (t.documentWith m) (u.documentWith m') := by
  refine Alike.induction ?primitive ?array ?map ?union ?named h
  case primitive =>
    intro props props' kind hp
    have he : props.isEmpty = props'.isEmpty := by
      rw [← Members.isEmpty_tidy props, hp, Members.isEmpty_tidy]
    simp only [documentWith]
    rw [he, withMissing_congr _ hp]
    exact .pure _
  case array =>
    refine fun _ ih hp => ih.bind fun document => ?_
    rw [withMissing_congr _ hp]
    exact .pure _
  case map =>
    refine fun _ ih hp => ih.bind fun document => ?_
    rw [withMissing_congr _ hp]
    exact .pure _
  case union =>
    rintro ts us - ih
    suffices hs : SameUnder P (branchDocuments m ts) (branchDocuments m' us) from
      hs.bind fun _ => .pure _
    induction ih with
    | nil => exact .pure _
    | cons hu _ ih => exact hu.bind fun _ => ih.bind fun _ => .pure _
  case named => exact fun hab => hm _ _ hab

theorem Field.documentWith_sameUnder {f g : Field} (h : f.Alike ρ g) :
    SameUnder P (f.documentWith m) (g.documentWith m') := by
  unfold Field.documentWith
  rw [h.name, h.default, h.order, h.aliases, textMember_eq h.doc]
  refine (Schema.documentWith_sameUnder hm h.type).bind fun type => ?_
  refine (SameUnder.lift _).bind fun aliases => ?_
  rw [withMissing_congr _ h.props]
  exact .pure _

theorem Field.documentsWith_sameUnder {fs gs : List Field}
    (h : List.Forall₂ (Field.Alike ρ) fs gs) :
    SameUnder P (Field.documentsWith m fs) (Field.documentsWith m' gs) := by
  induction h with
  | nil => exact .pure _
  | cons hf _ ih =>
    refine (Field.documentWith_sameUnder hm hf).bind fun document => ?_
    exact ih.bind fun documents => .pure _

theorem Definition.bodyMembers_sameUnder {b b' : Body} (h : b.Alike ρ b') :
    SameUnder P (bodyMembers m b) (bodyMembers m' b') := by
  refine Body.Alike.cases (fun hf => ?_) (fun _ _ => .pure _) (fun _ => .pure _) h
  exact (Field.documentsWith_sameUnder hm hf).bind fun documents => .pure _

end

theorem Definition.Alike.attributes_eq {d e : Definition} (h : d.Alike ρ e) :
    d.attributes = e.attributes := by
  rw [Definition.attributes, Definition.attributes, h.body.typeName_eq, h.name, h.space, h.aliases,
    textMember_eq h.doc]

/-! ### Depth -/

namespace Catalog

/-- The number of definitions whose full names have not been written. -/
def unwritten (c : Catalog) (names : List String) : Nat :=
  c.definitions.countP fun d => !names.contains d.fullName

theorem unwritten_nil (c : Catalog) : c.unwritten [] = c.size := by
  simp [unwritten, size]

theorem definition_mem (h : id.index < c.size) : c.definition id ∈ c.definitions := by
  have h : id.index < c.definitions.length := h
  simp [definition, getD_eq_getElem?_getD, getElem?_eq_getElem h]

/-- Writing a definition leaves fewer to be written. -/
theorem unwritten_append_lt (hid : id.index < c.size) (hn : c.fullName id ∉ names) :
    c.unwritten (names ++ [c.fullName id]) < c.unwritten names := by
  unfold unwritten
  rw [countP_eq_countP_filter_add c.definitions (fun d => !names.contains d.fullName)
    (fun d => !(names ++ [c.fullName id]).contains d.fullName)]
  have hle : c.definitions.countP (fun d => !(names ++ [c.fullName id]).contains d.fullName) ≤
      (c.definitions.filter fun d => !(names ++ [c.fullName id]).contains d.fullName).countP
        fun d => !names.contains d.fullName := by
    rw [countP_eq_length_filter]
    refine Nat.le_of_eq (countP_eq_length.mpr fun d hd => ?_).symm
    have := (mem_filter.mp hd).2
    simp_all
  refine Nat.lt_of_le_of_lt hle (Nat.lt_add_of_pos_right (countP_pos_iff.mpr ?_))
  refine ⟨c.definition id, mem_filter.mpr ⟨definition_mem hid, ?_⟩, ?_⟩
  · simp [fullName]
  · simpa [fullName] using hn

end Catalog

/-! ### Mentions -/

namespace Catalog

theorem mention_of_mem (h : c.fullName id ∈ names) :
    (c.mention depth id).run names = .ok (.string (c.fullName id), names) := by
  have h : (c.definition id).fullName ∈ names := h
  rw [mention.eq_def]
  simp [StateT.run_bind, h]
  rfl

theorem mention_of_notMem (h : c.fullName id ∉ names) :
    (c.mention (depth + 1) id).run names =
      ((c.definition id).documentWith (c.mention depth)).run names := by
  have h : (c.definition id).fullName ∉ names := h
  rw [mention.eq_def]
  simp [StateT.run_bind, h]

end Catalog

theorem Definition.documentWith_run (m : Mention) (d : Definition) (names : List String) :
    (d.documentWith m).run names = ((bodyMembers m d.body) >>= fun body =>
      pure (.object (Members.withMissing (d.attributes ++ body) d.props))).run
        (names ++ [d.fullName]) :=
  rfl

section
variable {c : Catalog} (hc : c.Alike ρ c')
  (hr : ∀ a b, ρ a b → a.index < c.size ∧ b.index < c'.size)
include hc hr

/-- **Alike definitions are mentioned in the same way**, as long as the depths suffice for the
definitions that have not been written. -/
theorem Catalog.mention_sameUnder (depth depth' : Nat) (hab : ρ a b) :
    SameUnder (fun names => c.unwritten names ≤ depth ∧ c'.unwritten names ≤ depth')
      (c.mention depth a) (c'.mention depth' b) := by
  induction depth generalizing depth' a b with
  | zero =>
    rintro names ⟨hn, hn'⟩
    have hmem : c.fullName a ∈ names := by
      by_contra h
      exact absurd (unwritten_append_lt (hr a b hab).1 h) (by omega)
    rw [mention_of_mem hmem, mention_of_mem (hc.fullName_eq hab ▸ hmem), hc.fullName_eq hab]
    refine ⟨rfl, fun j names' h => ?_⟩
    cases h
    exact ⟨hn, hn'⟩
  | succ depth ih =>
    rintro names ⟨hn, hn'⟩
    by_cases hmem : c.fullName a ∈ names
    · rw [mention_of_mem hmem, mention_of_mem (hc.fullName_eq hab ▸ hmem), hc.fullName_eq hab]
      refine ⟨rfl, fun j names' h => ?_⟩
      cases h
      exact ⟨hn, hn'⟩
    · have hmem' : c'.fullName b ∉ names := hc.fullName_eq hab ▸ hmem
      have hlt := unwritten_append_lt (hr a b hab).1 hmem
      have hlt' := unwritten_append_lt (hr a b hab).2 hmem'
      obtain ⟨depth', rfl⟩ : ∃ n, depth' = n + 1 := ⟨depth' - 1, by omega⟩
      have hd := hc a b hab
      rw [mention_of_notMem hmem, mention_of_notMem hmem', Definition.documentWith_run,
        Definition.documentWith_run, hd.attributes_eq]
      have hs := (Definition.bodyMembers_sameUnder (fun a b hab => ih depth' hab) hd.body).bind
        (f := fun body => pure (Json.object (Members.withMissing
          ((c'.definition b).attributes ++ body) (c.definition a).props)))
        (g := fun body => pure (Json.object (Members.withMissing
          ((c'.definition b).attributes ++ body) (c'.definition b).props)))
        (fun body => by rw [withMissing_congr _ hd.props]; exact .pure _)
      rw [show (c'.definition b).fullName = (c.definition a).fullName from hd.fullName_eq.symm]
      rw [← hc.fullName_eq hab] at hlt'
      obtain ⟨he, hk⟩ := hs (names ++ [c.fullName a]) ⟨by omega, by omega⟩
      refine ⟨he, fun j names' h => ?_⟩
      obtain ⟨hk, hk'⟩ := hk j names' h
      exact ⟨by omega, by omega⟩

theorem Catalog.mentions_sameUnder (hab : ρ a b) :
    SameUnder (fun names => c.unwritten names ≤ c.size ∧ c'.unwritten names ≤ c'.size)
      (c.mentions a) (c'.mentions b) :=
  Catalog.mention_sameUnder hc hr c.size c'.size hab

/-- **Alike types have the same document.** -/
theorem Schema.document_alike {t u : Schema} (h : t.Alike ρ u) : t.document c = u.document c' := by
  have hs := Schema.documentWith_sameUnder
    (fun a b hab => Catalog.mentions_sameUnder hc hr hab) h
  have he := (hs [] ⟨Nat.le_of_eq c.unwritten_nil, Nat.le_of_eq c'.unwritten_nil⟩).1
  simp only [Schema.document, StateT.run'_eq, he]

end

/-! ### Reachable types -/

section
variable {enter enter' : TypeId → List TypeId → List TypeId}
  (he : ∀ id seen, enter id seen = enter' id seen)
include he

theorem Schema.reachWith_alike (h : t.Alike Eq u) :
    ∀ seen, t.reachWith enter seen = u.reachWith enter' seen := by
  refine Alike.induction ?primitive ?array ?map ?union ?named h
  case primitive => exact fun _ _ _ => rfl
  case array => exact fun _ ih _ => ih
  case map => exact fun _ ih _ => ih
  case union =>
    rintro ts us - ih
    show ∀ seen, reachBranches enter ts seen = reachBranches enter' us seen
    induction ih with
    | nil => exact fun _ => rfl
    | cons hu _ ih =>
      intro seen
      rw [reachBranches, reachBranches, hu, ih]
  case named =>
    rintro id _ rfl seen
    exact he id seen

end

theorem Catalog.enter_alike (hc : c.Alike Eq c') (depth : Nat) (id : TypeId) (seen : List TypeId) :
    c.enter depth id seen = c'.enter depth id seen := by
  induction depth generalizing id seen with
  | zero => rfl
  | succ depth ih =>
    rw [Catalog.enter, Catalog.enter]
    split
    · rfl
    · have hf := (hc id id rfl).body.fields
      generalize seen ++ [id] = seen
      generalize (c.definition id).body.fields = fs at hf
      generalize (c'.definition id).body.fields = gs at hf
      induction hf generalizing seen with
      | nil => rfl
      | cons hfg _ ihs =>
        rw [foldl_cons, foldl_cons, Schema.reachWith_alike ih hfg.type, ihs]

/-- **Alike types over the same identities reach the same types**, in the same order. -/
theorem Schema.reachable_alike (hc : c.Alike Eq c') (hs : c.size = c'.size) (h : t.Alike Eq u) :
    t.reachable c = u.reachable c' := by
  rw [Schema.reachable, Schema.reachable, ← hs]
  exact Schema.reachWith_alike (Catalog.enter_alike hc c.size) h []

end Avroc
