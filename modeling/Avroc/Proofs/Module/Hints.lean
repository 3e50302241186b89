import Avroc.Proofs.Module.Alternatives
import Avroc.Proofs.Module.Handing
import Avroc.Proofs.Registry.Closure
import Avroc.Proofs.Schema.Alike

/-!
# Hints

The hint of a type is written from the inside out.  Beside the text stands its structure, from which
the text is made; a type's hint is written rightly, with those of all types in it, exactly if the
unions in it are separable.

* `Hint.wellWritten_iff` : **hints are written rightly exactly if unions are separable.**
* `typeHint_wellWritten` : **the hints of all types that can be read.**
-/

namespace Avroc

open List

variable {h u : Hint} {name word fullName : String} {c : Catalog} {id : TypeId}

/-- The structure of a hint. -/
inductive Hint
  | leaf (text : String)
  | list (items : Hint)
  | dict (keys : String) (values : Hint)
  | union (branches : List Hint) (nullable : Bool)

namespace Hint

mutual

/-- The text of a hint. -/
def text : Hint → String
  | leaf text => text
  | list items => "list[" ++ items.text ++ "]"
  | dict keys values => "dict[" ++ keys ++ ", " ++ values.text ++ "]"
  | union branches nullable => unionHint (texts branches) nullable
termination_by structural h => h

/-- The texts of hints. -/
def texts : List Hint → List String
  | [] => []
  | h :: rest => h.text :: texts rest
termination_by structural hs => hs

end

theorem texts_eq (hs : List Hint) : texts hs = hs.map text := by
  induction hs with
  | nil => rfl
  | cons h hs ih => rw [texts, ih, map_cons]

/-- The first hint is the second one, or is in it. -/
inductive Inside (u : Hint) : Hint → Prop
  | refl : Inside u u
  | items {items : Hint} : Inside u items → Inside u (list items)
  | values {keys : String} {values : Hint} : Inside u values → Inside u (dict keys values)
  | branch {branches : List Hint} {nullable : Bool} {b : Hint} :
      b ∈ branches → Inside u b → Inside u (union branches nullable)

theorem Inside.trans {v : Hint} (huv : u.Inside v) (hvh : v.Inside h) : u.Inside h := by
  induction hvh with
  | refl => exact huv
  | items _ ih => exact .items ih
  | values _ ih => exact .values ih
  | branch hb _ ih => exact .branch hb ih

/-- Brackets are balanced, and the alternatives of a union are those of its branches, each at its
first occurrence, and `None` at the end if it is nullable. -/
structure WellWritten (h : Hint) : Prop where
  balanced : Balanced h.text
  union : ∀ branches nullable, h = .union branches nullable →
    alternatives h.text = unionAlternatives (branches.map text) nullable ∧
      (unionAlternatives (branches.map text) nullable).Nodup

/-- No piece of the alternatives occurs twice, in any union of the hint. -/
def IsSeparable (h : Hint) : Prop :=
  ∀ branches nullable, (union branches nullable).Inside h →
    Separable (branches.map text) nullable

section
variable {items values : Hint} {branches : List Hint}

theorem isSeparable_leaf (text : String) : (leaf text).IsSeparable :=
  fun _ _ hin => nomatch hin

theorem isSeparable_list : (list items).IsSeparable ↔ items.IsSeparable := by
  refine ⟨fun h branches nullable hin => h branches nullable (.items hin), ?_⟩
  intro h branches nullable hin
  cases hin with
  | items hin => exact h branches nullable hin

theorem isSeparable_dict (keys : String) : (dict keys values).IsSeparable ↔ values.IsSeparable := by
  refine ⟨fun h branches nullable hin => h branches nullable (.values hin), ?_⟩
  intro h branches nullable hin
  cases hin with
  | values hin => exact h branches nullable hin

theorem isSeparable_union {nullable : Bool} : (union branches nullable).IsSeparable ↔
    Separable (branches.map text) nullable ∧ ∀ b ∈ branches, b.IsSeparable := by
  refine ⟨fun h => ⟨h branches nullable .refl, fun b hb branches' nullable' hin => ?_⟩, ?_⟩
  · exact h branches' nullable' (.branch hb hin)
  · rintro ⟨hunion, hbranches⟩ branches' nullable' hin
    cases hin with
    | refl => exact hunion
    | branch hb hin => exact hbranches _ hb branches' nullable' hin

end

mutual

/-- Whether the unions of a hint are separable. -/
def checks : Hint → Bool
  | leaf _ => true
  | list items => items.checks
  | dict _ values => values.checks
  | union branches nullable => decide (Separable (branches.map text) nullable) && checksAll branches
termination_by structural h => h

/-- Whether the unions of all of the hints are separable. -/
def checksAll : List Hint → Bool
  | [] => true
  | h :: rest => h.checks && checksAll rest
termination_by structural hs => hs

end

/-- Induction over hints, with the hypothesis for every branch of a union. -/
@[elab_as_elim]
theorem nestedInduction {P : Hint → Prop} (leaf : ∀ text, P (leaf text))
    (list : ∀ items, P items → P (list items))
    (dict : ∀ keys values, P values → P (dict keys values))
    (union : ∀ branches nullable, (∀ b ∈ branches, P b) → P (union branches nullable)) (h : Hint) :
    P h := by
  refine Hint.rec (motive_1 := P) (motive_2 := fun branches => ∀ b ∈ branches, P b)
    leaf list dict union ?_ ?_ h
  · exact fun _ h => absurd h not_mem_nil
  · exact fun b branches hb hbranches => forall_mem_cons.mpr ⟨hb, hbranches⟩

theorem checks_iff (h : Hint) : h.checks = true ↔ h.IsSeparable := by
  induction h using nestedInduction with
  | leaf text => exact iff_of_true rfl (isSeparable_leaf text)
  | list items ih => rw [checks, ih, isSeparable_list]
  | dict keys values ih => rw [checks, ih, isSeparable_dict]
  | union branches nullable ih =>
    suffices hall : checksAll branches = true ↔ ∀ b ∈ branches, b.IsSeparable by
      rw [checks, Bool.and_eq_true, decide_eq_true_iff, hall, isSeparable_union]
    induction branches with
    | nil => simp [checksAll]
    | cons b rest ihs =>
      obtain ⟨hb, hrest⟩ := forall_mem_cons.mp ih
      rw [checksAll, Bool.and_eq_true, hb, ihs hrest, forall_mem_cons]

instance (h : Hint) : Decidable h.IsSeparable :=
  decidable_of_iff _ h.checks_iff

/-- What is written as it is consists of words without bars and brackets. -/
inductive Plain : Hint → Prop
  | leaf {words : List String} : words ≠ [] → (∀ w ∈ words, Unmarked w) →
      Plain (leaf (" | ".intercalate words))
  | list {items : Hint} : Plain items → Plain (list items)
  | dict {words : List String} {values : Hint} : words ≠ [] → (∀ w ∈ words, Unmarked w) →
      Plain values → Plain (dict (" | ".intercalate words) values)
  | union {branches : List Hint} {nullable : Bool} : (∀ b ∈ branches, Plain b) →
      Plain (union branches nullable)

theorem Plain.of_inside (hu : u.Inside h) (hh : h.Plain) : u.Plain := by
  induction hu with
  | refl => exact hh
  | items _ ih =>
    cases hh with
    | list hitems => exact ih hitems
  | values _ ih =>
    cases hh with
    | dict _ _ hvalues => exact ih hvalues
  | branch hb _ ih =>
    cases hh with
    | union hall => exact ih (hall _ hb)

theorem IsSeparable.of_inside (hu : u.Inside h) (hh : h.IsSeparable) : u.IsSeparable :=
  fun branches nullable hin => hh branches nullable (hin.trans hu)

theorem sound_words {words : List String} (hne : words ≠ []) (h : ∀ w ∈ words, Unmarked w) :
    Sound (" | ".intercalate words) :=
  sound_intercalate hne fun w hw => .of_unmarked (h w hw)

/-- A hint with separable unions is made of alternatives. -/
theorem Plain.sound (hp : h.Plain) (hs : h.IsSeparable) : Sound h.text := by
  induction hp with
  | leaf hne hwords => exact sound_words hne hwords
  | @list items _ ih =>
    have hitems := ih (isSeparable_list.mp hs)
    have hword : Unmarked "list" := by decide
    exact .of_alternative (.bracketed hword hitems.regular hitems.balanced)
  | @dict words values hne hwords _ ih =>
    have hvalues := ih ((isSeparable_dict _).mp hs)
    have hkeys := sound_words hne hwords
    have hcomma : Unmarked ", " := by decide
    have hregular := (hkeys.regular.append (.of_no_bar hcomma.no_bar)).append hvalues.regular
    have hbalanced : Balanced (" | ".intercalate words ++ ", " ++ values.text) := by
      rw [Balanced, nesting_append, nesting_append, hkeys.balanced]
      exact (congrArg (Option.bind · _) (hcomma.nesting_eq 0)).trans hvalues.balanced
    have hall : IsAlternative ("dict" ++ "[" ++ _ ++ "]") :=
      .bracketed (by decide) hregular hbalanced
    simp only [← String.append_assoc] at hall
    exact .of_alternative hall
  | @union branches nullable _ ih =>
    obtain ⟨hunion, hbranches⟩ := isSeparable_union.mp hs
    rw [text, texts_eq]
    exact hunion.sound (forall_mem_map.mpr fun b hb => ih b hb (hbranches b hb))

/-- **Hints are written rightly exactly if unions are separable**: a hint and all hints in it are
well written if and only if no piece occurs twice in the alternatives of a union. -/
theorem wellWritten_iff (hp : h.Plain) :
    (∀ u : Hint, u.Inside h → u.WellWritten) ↔ h.IsSeparable := by
  constructor
  · -- from the inside out: the branches of a union are sound when their own unions are separable
    intro hall
    induction hp with
    | leaf => exact isSeparable_leaf _
    | list _ ih => exact isSeparable_list.mpr (ih fun u hu => hall u (.items hu))
    | dict _ _ _ ih => exact (isSeparable_dict _).mpr (ih fun u hu => hall u (.values hu))
    | @union branches nullable hplain ih =>
      have hbranches : ∀ b ∈ branches, b.IsSeparable :=
        fun b hb => ih b hb fun u hu => hall u (.branch hb hu)
      refine isSeparable_union.mpr ⟨?_, hbranches⟩
      refine (alternatives_unionHint_iff (forall_mem_map.mpr fun b hb => ?_)).mp ?_
      · exact (hplain b hb).sound (hbranches b hb)
      · have hwritten := (hall _ .refl).union branches nullable rfl
        rwa [text, texts_eq] at hwritten
  · intro hs u hu
    refine ⟨((hp.of_inside hu).sound (hs.of_inside hu)).balanced, ?_⟩
    rintro branches nullable rfl
    rw [text, texts_eq]
    refine (alternatives_unionHint_iff (forall_mem_map.mpr fun b hb => ?_)).mpr
      (hs branches nullable hu)
    have hin : b.Inside (.union branches nullable) := .branch hb .refl
    exact (hp.of_inside (hin.trans hu)).sound (hs.of_inside (hin.trans hu))

end Hint

/-! ### The structure of a type's hint -/

namespace Schema

mutual

/-- The structure of the hint of a type. -/
def hint (c : Catalog) (o : CompileOptions) : Schema → Rendering Hint
  | primitive kind props => do
    return .leaf (← logicalHint o kind props)
  | array items _ => do
    return .list (← hint c o items)
  | map values _ => do
    return .dict o.stringType.hint (← hint c o values)
  | union branches => do
    return .union (← hints c o branches) (branches.any isNull)
  | named id => do
    return .leaf (← referenceHint c o id)
termination_by structural t => t

/-- The structures of the hints of the branches of a union that are not null. -/
def hints (c : Catalog) (o : CompileOptions) : List Schema → Rendering (List Hint)
  | [] => pure []
  | branch :: rest => do
    if branch.isNull then hints c o rest
    else
      let first ← hint c o branch
      let others ← hints c o rest
      return first :: others
termination_by structural branches => branches

end

/-- **The text of a type's hint is that of its structure.** -/
theorem typeHint_eq (c : Catalog) (o : CompileOptions) (t : Schema) :
    t.typeHint c o = Hint.text <$> t.hint c o := by
  induction t using nestedInduction with
  | primitive kind props => simp [typeHint, hint, Hint.text]
  | array items props ih => simp [typeHint, hint, ih, Hint.text]
  | map values props ih => simp [typeHint, hint, ih, Hint.text]
  | named id => simp [typeHint, hint, Hint.text]
  | union branches ih =>
    suffices hbranches : branchHints c o branches = Hint.texts <$> hints c o branches by
      simp [typeHint, hint, hbranches, Hint.text]
    induction branches with
    | nil => rfl
    | cons branch rest ihs =>
      obtain ⟨hbranch, hrest⟩ := forall_mem_cons.mp ih
      rw [branchHints, hints]
      split
      · exact ihs hrest
      · simp [hbranch, ihs hrest, Hint.texts]

end Schema

/-! ### Names without bars and brackets -/

theorem Unmarked.append {text text' : String} (h : Unmarked text) (h' : Unmarked text') :
    Unmarked (text ++ text') := by
  intro c hc
  rw [String.toList_append, mem_append] at hc
  exact hc.elim (h c) (h' c)

theorem unmarked_of_isNamePart {c : Char} (h : isNamePart c = true) :
    c ≠ '|' ∧ c ≠ '[' ∧ c ≠ ']' := by
  refine ⟨?_, ?_, ?_⟩ <;> rintro rfl <;> cases h

theorem unmarked_of_isLegalName (h : isLegalName name = true) : Unmarked name := by
  intro c hc
  rcases isNamePart_of_isLegalName h hc with hc | rfl
  · exact unmarked_of_isNamePart hc
  · decide

theorem unmarked_freshen (h : Unmarked word) (taken : List String) :
    Unmarked (freshen taken word) := by
  obtain ⟨n, -, hn, -⟩ := freshen_first taken word
  intro c hc
  rw [hn, toList_underlined, mem_append] at hc
  rcases hc with hc | hc
  · exact h c hc
  · rw [eq_of_mem_replicate hc]
    decide

theorem mem_replaceFrom {word replacement : List Char} {taken : Nat} {cs : List Char} {c : Char}
    (h : c ∈ Text.replaceFrom word replacement taken cs) : c ∈ replacement ∨ c ∈ cs := by
  induction cs generalizing taken with
  | nil => cases h
  | cons d cs ih =>
    cases taken with
    | succ left => exact (ih h).imp_right (mem_cons_of_mem _)
    | zero =>
      rw [Text.replaceFrom] at h
      split at h
      · exact (mem_append.mp h).elim .inl fun h => (ih h).imp_right (mem_cons_of_mem _)
      · rcases mem_cons.mp h with rfl | h
        · exact .inr mem_cons_self
        · exact (ih h).imp_right (mem_cons_of_mem _)

theorem LegalFullName.unmarked (h : LegalFullName fullName) :
    Unmarked fullName := by
  intro c hc
  by_cases hdot : c = '.'
  · subst hdot
    decide
  · obtain ⟨part, hpart, hc⟩ := Text.exists_mem_splitAtEach hc hdot
    refine unmarked_of_isLegalName (h _ (mem_map_of_mem hpart)) c ?_
    rwa [String.toList_ofList]

theorem LegalFullName.unmarked_underscored (h : LegalFullName fullName) :
    Unmarked (underscored fullName) := by
  intro c hc
  rw [underscored, Text.replaceWord, String.toList_ofList] at hc
  rcases mem_replaceFrom hc with hc | hc
  · rw [mem_singleton.mp hc]
    decide
  · exact h.unmarked c hc

/-- The names that types and libraries have been given have no bars and brackets in them. -/
structure ImportTable.Unmarked (t : ImportTable) : Prop where
  aliases : ∀ a ∈ t.aliases, Avroc.Unmarked a.2
  references : ∀ x ∈ t.references, Avroc.Unmarked x.2

namespace ImportTable

variable {t t' : ImportTable}

theorem unmarked_withLibrary (h : t.Unmarked) (library : Library) (needed : Bool) :
    Avroc.Unmarked (t.withLibrary library needed).1 ∧
      (t.withLibrary library needed).2.Unmarked := by
  have hfresh : Avroc.Unmarked (t.freshAlias library) :=
    unmarked_freshen (by cases library <;> decide) _
  obtain ⟨needs, ⟨name, hname, he⟩ | ⟨-, he⟩⟩ := t.withLibrary_cases library needed <;> rw [he]
  · exact ⟨h.aliases _ hname, h.aliases, h.references⟩
  · exact ⟨hfresh, forall_mem_append.mpr ⟨h.aliases, forall_mem_singleton.mpr hfresh⟩,
      h.references⟩

theorem unmarked_withReference (h : t.Unmarked) {d : Definition} (hd : d.Named) :
    Avroc.Unmarked (t.withReference d).1 ∧ (t.withReference d).2.Unmarked := by
  have hname := unmarked_of_isLegalName hd.1
  have hfresh : Avroc.Unmarked (t.freshLocal d) := by
    rw [freshLocal]
    split
    · exact hname
    · exact hd.legalFullName.unmarked_underscored
  rcases t.withReference_cases d with (⟨-, he⟩ | ⟨name, hmem, he⟩) | ⟨-, he⟩ <;> rw [he]
  · exact ⟨hname, h⟩
  · exact ⟨h.references _ hmem, h⟩
  · exact ⟨hfresh, h.aliases,
      forall_mem_append.mpr ⟨h.references, forall_mem_singleton.mpr hfresh⟩⟩

theorem Hands.unmarked {named : TypeId → Prop} (hnamed : ∀ id, named id → (c.definition id).Named)
    (h : t.Hands c named t') (ht : t.Unmarked) : t'.Unmarked := by
  induction h with
  | refl => exact ht
  | library library needed _ ih => exact (unmarked_withLibrary ih library needed).2
  | reference hid _ ih => exact (unmarked_withReference ih (hnamed _ hid)).2

end ImportTable

/-! ### Hints of words -/

/-- From a table of names without bars and brackets the step gets a value with the property, and
leaves such a table. -/
abbrev Spells {α : Type} (P : α → Prop) (step : Rendering α) : Prop :=
  Renders ImportTable.Unmarked (fun _ => True) P step

theorem Hint.plain_word (h : Unmarked word) : (Hint.leaf word).Plain := by
  have hleaf := Plain.leaf (cons_ne_nil word []) (forall_mem_singleton.mpr h)
  rwa [String.intercalate_singleton] at hleaf

theorem StringType.exists_words (stringType : StringType) :
    ∃ words : List String, words ≠ [] ∧ (∀ w ∈ words, Unmarked w) ∧
      stringType.hint = " | ".intercalate words := by
  cases stringType with
  | charSequence => exact ⟨["str", "bytes"], by decide, by decide, by decide⟩
  | string => exact ⟨["str"], by decide, by decide, by decide⟩
  | utf8 => exact ⟨["bytes"], by decide, by decide, by decide⟩

theorem plain_primitiveHint (o : CompileOptions) (kind : Primitive) :
    (Hint.leaf (primitiveHint o kind)).Plain := by
  cases kind with
  | string =>
    obtain ⟨words, hne, hwords, he⟩ := o.stringType.exists_words
    rw [primitiveHint, he]
    exact .leaf hne hwords
  | null | boolean | int | long | float | double | bytes =>
    rw [primitiveHint]
    exact Hint.plain_word (by decide)

theorem unmarked_of_timeClass {props : Members} (h : timeClass props = .ok (some name)) :
    Unmarked name := by
  unfold timeClass at h
  split at h
  · rename_i s _
    have hname : timeClass? s = some name := Except.ok.inj h
    unfold timeClass? at hname
    split at hname <;> cases hname <;> decide
  · cases h
  · cases h
  · cases h

theorem spells_libraryAlias (library : Library) (needed : Bool) :
    Spells Unmarked (libraryAlias library needed) :=
  renders_modifyGet fun _ ht => ImportTable.unmarked_withLibrary ht library needed

theorem spells_decimalHint : Spells Unmarked decimalHint :=
  (spells_libraryAlias _ _).bind fun _ ha => renders_pure (ha.append (by decide))

theorem spells_logicalHint (o : CompileOptions) (kind : Primitive) (props : Members) :
    Spells (fun text => (Hint.leaf text).Plain) (logicalHint o kind props) := by
  have hplain := plain_primitiveHint o kind
  unfold logicalHint
  split
  · exact spells_decimalHint.imp fun _ => Hint.plain_word
  · refine (renders_liftM (fun _ h => h) fun _ _ => trivial).bind fun time htime => ?_
    split
    · split
      · refine (spells_libraryAlias _ _).bind fun library hlibrary => renders_pure ?_
        have hdot : Unmarked "." := by decide
        exact Hint.plain_word ((hlibrary.append hdot).append (unmarked_of_timeClass htime))
      · exact renders_pure hplain
    · exact renders_pure hplain

section
variable {named : TypeId → Prop} (hnamed : ∀ id, named id → (c.definition id).Named)

include hnamed

theorem spells_typeReference (h : named id) : Spells Unmarked (typeReference c id) :=
  renders_modifyGet fun _ ht => ImportTable.unmarked_withReference ht (hnamed id h)

theorem spells_referenceHint (o : CompileOptions) (h : named id) :
    Spells Unmarked (referenceHint c o id) := by
  have hreference := spells_typeReference hnamed h
  unfold referenceHint
  dsimp only
  split
  · split
    · exact spells_decimalHint
    · exact hreference
  · exact hreference

/-- **The structure of a hint is made of words**, where types have legal names. -/
theorem spells_hint (o : CompileOptions) {attributes : Members → Prop} {t : Schema}
    (h : t.Each attributes named) : Spells Hint.Plain (t.hint c o) := by
  induction h with
  | primitive _ => exact (spells_logicalHint o _ _).bind fun _ ha => renders_pure ha
  | array _ ih => exact ih.bind fun _ ha => renders_pure (.list ha)
  | map _ ih =>
    refine ih.bind fun values hvalues => renders_pure ?_
    obtain ⟨words, hne, hwords, he⟩ := o.stringType.exists_words
    rw [he]
    exact .dict hne hwords hvalues
  | @union branches hall ih =>
    suffices hbranches : Spells (fun hs => ∀ h ∈ hs, Hint.Plain h) (Schema.hints c o branches) from
      hbranches.bind fun _ hs => renders_pure (.union hs)
    clear hall
    induction branches with
    | nil => exact renders_pure (forall_mem_nil _)
    | cons branch rest ihs =>
      obtain ⟨hbranch, hrest⟩ := forall_mem_cons.mp ih
      rw [Schema.hints]
      split
      · exact ihs hrest
      · exact hbranch.bind fun _ hb => (ihs hrest).bind fun _ hs =>
          renders_pure (forall_mem_cons.mpr ⟨hb, hs⟩)
  | named hid =>
    exact (spells_referenceHint hnamed o hid).bind fun _ ha => renders_pure (Hint.plain_word ha)

end

/-- The imports of a module of the registry, at any point while its text is written. -/
def Scope.Imports (s : Scope) (table : ImportTable) : Prop :=
  ∃ (start : ImportTable) (reserved : List String), (start = .ofNone reserved ∨
      ∃ id ∈ s.registry.types, start = .ofType (s.catalog.definition id) reserved) ∧
    start.Hands s.catalog s.Knows table

theorem Scope.Imports.unmarked {s : Scope} {table : ImportTable}
    (hnamed : ∀ id, s.Knows id → (s.catalog.definition id).Named) (h : s.Imports table) :
    table.Unmarked := by
  obtain ⟨start, reserved, hstart, hhands⟩ := h
  refine hhands.unmarked hnamed ?_
  rcases hstart with rfl | ⟨id, -, rfl⟩
  · exact ⟨forall_mem_nil _, forall_mem_nil _⟩
  · exact ⟨forall_mem_nil _, forall_mem_nil _⟩

/-- **The hints of all types that can be read**, whatever documents are read in a registry that
starts empty with names checked, for all options, and in all modules of the registry.  A type that
has been read, or is reached from one, has the text of a hint whose brackets are balanced, and whose
alternatives are those of its branches, each at its first occurrence, and `None` at the end exactly
if it is nullable, at every union of the hint; this is so if and only if these unions are separable:
they have alternatives, none but the last is `None` if they are nullable, and no piece between bars
occurs twice in those of the branches. -/
theorem typeHint_wellWritten (s : Scope) (hempty : s.registry.entries = [])
    (hc : s.registry.checksNames = true) (calls : List ParseCall) (o : CompileOptions) :
    let s' := (ParseCall.runAll calls s).2
    ∀ r ∈ ParseCall.successes (ParseCall.runAll calls s).1, ∀ root ∈ r.types,
      ∀ t, root.Reaches s'.catalog t → ∀ table, s'.Imports table →
        (t.typeHint s'.catalog o).run table =
            ((t.hint s'.catalog o).run table).map (fun u => (u.1.text, u.2)) ∧
          ∀ h table', (t.hint s'.catalog o).run table = .ok (h, table') →
            ((∀ u : Hint, u.Inside h → u.WellWritten) ↔ h.IsSeparable) := by
  intro s' r hr root hroot t hreach table htable
  have hstands := (ParseCall.builds_runAll (Scope.orderly_of_empty hempty) calls).2
  have hlawful : s'.Lawful := ParseCall.lawful_runAll hempty hc calls
  have hnamed : ∀ id, s'.Knows id → (s'.catalog.definition id).Named := fun _ => hlawful.named
  have ht : t.Stands s' :=
    .of_reaches hlawful hreach ((hstands r (ParseCall.mem_successes hr)).types root hroot)
  refine ⟨?_, fun h table' hrun => Hint.wellWritten_iff ?_⟩
  · rw [Schema.typeHint_eq, StateT.run_map]
    rfl
  · exact ((spells_hint hnamed o ht.mentions).result table h table' (htable.unmarked hnamed) hrun).1

/-- A nullable union with texts, an array of a union, and a map. -/
def nestedUnionText : String :=
  "[\"null\",\"string\",\x7b\"type\":\"array\",\"items\":[\"null\",\"int\"]\x7d," ++
    "\x7b\"type\":\"map\",\"values\":\"long\"\x7d]"

theorem typeHint_wellWritten_nestedUnion :
    let s := Scope.initial true true
    (s.registry.entries = [] ∧ s.registry.checksNames = true) ∧
    ∃ t s', ParseCall.runAll [.schema nestedUnionText] s = ([.ok (.schema t)], s') ∧
      s'.Imports (.ofNone []) ∧
      ∃ h table', (t.hint s'.catalog {}).run (.ofNone []) = .ok (h, table') ∧
        (t.typeHint s'.catalog {}).run (.ofNone []) =
          .ok ("str | bytes | list[int | None] | dict[str | bytes, int] | None", table') ∧
        h.IsSeparable ∧ ∀ u : Hint, u.Inside h → u.WellWritten := by
  intro s
  have hread : succeeds (readSchemaText nestedUnionText) s (fun t s' =>
      ((t.hint s'.catalog {}).run (.ofNone [])).toOption.any fun r => decide r.1.IsSeparable &&
        r.1.text == "str | bytes | list[int | None] | dict[str | bytes, int] | None") = true := by
    decide +kernel
  obtain ⟨t, s', ht, htest⟩ := exists_of_succeeds _ _ _ hread
  rw [Option.any_eq_true] at htest
  obtain ⟨⟨h, table'⟩, hh, htest⟩ := htest
  rw [Bool.and_eq_true, decide_eq_true_iff, beq_iff_eq] at htest
  have hhint := eq_ok_of_toOption hh
  have hcall : Yields (ParseCall.schema nestedUnionText).run s (.schema t) s' :=
    ht.bind .pure
  have hrun : ParseCall.runAll [.schema nestedUnionText] s = ([.ok (.schema t)], s') := by
    rw [ParseCall.runAll, ParseCall.runAll, hcall]
  have himports : s'.Imports (.ofNone []) := ⟨_, [], .inl rfl, .refl⟩
  have hmain := typeHint_wellWritten s rfl rfl [.schema nestedUnionText] {}
  simp only [hrun] at hmain
  obtain ⟨htext, hiff⟩ := hmain (.schema t) mem_cons_self t mem_cons_self t (.refl t)
    _ himports
  refine ⟨⟨rfl, rfl⟩, t, s', hrun, himports, h, table', hhint, ?_, htest.1,
    (hiff h table' hhint).mpr htest.1⟩
  rw [htext, hhint, ← htest.2]
  rfl

/-- A union of an array and a map, both of the same nullable union. -/
def overlappingUnionText : String :=
  "[\x7b\"type\":\"array\",\"items\":[\"null\",\"int\"]\x7d," ++
    "\x7b\"type\":\"map\",\"values\":[\"null\",\"int\"]\x7d]"

/-- The second `None]` is missing. -/
theorem typeHint_overlappingUnion :
    ∃ t s', Yields (readSchemaText overlappingUnionText) (.initial true true) t s' ∧
      s'.Imports (.ofNone []) ∧
      ∃ text table', (t.typeHint s'.catalog {}).run (.ofNone []) = .ok (text, table') ∧
        text = "list[int | None] | dict[str | bytes, int" ∧ ¬Balanced text := by
  have hread : succeeds (readSchemaText overlappingUnionText) (.initial true true) (fun t s' =>
      ((t.typeHint s'.catalog {}).run (.ofNone [])).toOption.any fun r =>
        r.1 == "list[int | None] | dict[str | bytes, int") = true := by
    decide +kernel
  obtain ⟨t, s', ht, htest⟩ := exists_of_succeeds _ _ _ hread
  rw [Option.any_eq_true] at htest
  obtain ⟨⟨text, table'⟩, hr, htest⟩ := htest
  obtain rfl : text = _ := beq_iff_eq.mp htest
  exact ⟨t, s', ht, ⟨_, [], .inl rfl, .refl⟩, _, table', eq_ok_of_toOption hr, rfl,
    by decide +kernel⟩

end Avroc
