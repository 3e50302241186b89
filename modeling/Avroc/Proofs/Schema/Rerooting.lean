import Avroc.Proofs.Schema.Building
import Avroc.Proofs.Schema.Laid
import Avroc.Proofs.Schema.Renaming
import Avroc.Proofs.Schema.RoundTrip
import Mathlib.Data.List.Perm.Subperm

/-!
# Types drawn from another root

A type that was defined on the way to another one can be written down for itself.  Its document
starts with it and goes on in the order in which it reaches other types, so that other records are
unfinished when a default is checked, and other definitions stand inside each other.  The
definitions are laid again in that order, each at the place that it has in the list of reachable
types.

* `drawn_type`, `drawn_fields`, `drawn_enter` : **types and fields are laid again.**
* `Scope.document_reread_of_portable` : **a type of a registry has a document that is read again.**
-/

namespace Avroc

open List

variable {seen order : List TypeId} {s s₀ : Scope} {id a : TypeId} {depth : Nat} {isError : Bool}
  {gs : List Field}

/-! ### What a document can carry -/

/-- The attributes of the type have no meaning of their own. -/
inductive Schema.Clean : Schema → Prop
  | primitive {kind : Primitive} {props : Members} :
      props.Avoids typeAttributes → Clean (.primitive kind props)
  | array {items : Schema} {props : Members} :
      props.Avoids typeAttributes → Clean items → Clean (.array items props)
  | map {values : Schema} {props : Members} :
      props.Avoids typeAttributes → Clean values → Clean (.map values props)
  | union {branches : List Schema} : (∀ t ∈ branches, Clean t) → Clean (.union branches)
  | named (id : TypeId) : Clean (.named id)

/-- The order of the field is legal, its aliases are texts, and its attributes have no meaning of
their own. -/
structure Field.Clean (f : Field) : Prop where
  type : f.type.Clean
  order : LegalOrder f.order
  aliases : ∃ texts, f.aliases = .array texts ∧ texts.all isText = true
  props : f.props.Avoids fieldAttributes

/-- The aliases of the definition are texts, its attributes have no meaning of their own, a size is
not negative, and its fields are clean. -/
structure Definition.Clean (d : Definition) : Prop where
  aliases : d.aliases.all isText = true
  props : d.props.Avoids typeAttributes
  size : ∀ size, d.body = .fixed size → 0 ≤ size
  fields : ∀ f ∈ d.body.fields, f.Clean

/-- A definition that keeps the rules and is clean passes every check, before it gets fields. -/
theorem Definition.Clean.declarable {d : Definition} (h : d.Clean) (hd : d.Lawful) :
    (d.keep 0).Declarable where
  name := hd.named.1
  space := hd.named.2
  aliases := h.aliases
  props := h.props
  body := by
    have hbody := hd.body
    rw [keep]
    cases hb : d.body with
    | record isError fields => rfl
    | enum symbols default =>
      rw [hb] at hbody
      exact hbody
    | fixed size => exact h.size size hb

/-- The definition of the type can be read again: it is known by its name, which is no name of a
primitive type, it keeps the rules and is clean, and a default belongs to the type of its field
while the record has only the fields before it. -/
structure Scope.Portable (s : Scope) (id : TypeId) : Prop where
  lt_size : id.index < s.catalog.size
  known : s.registry.get? (s.catalog.fullName id) = some id
  name : Primitive.ofName? (s.catalog.fullName id) = none
  lawful : (s.catalog.definition id).Lawful
  clean : (s.catalog.definition id).Clean
  stands : ∀ f ∈ (s.catalog.definition id).body.fields, f.type.Stands s
  defaults : ∀ (n : Nat) (f : Field), (s.catalog.definition id).body.fields[n]? = some f →
    ∀ v ∈ f.default, v.fits (s.catalog.keep id n) f.type = true

/-! ### Lists of reachable types -/

/-- The second list goes on where the first ends, and no type comes twice. -/
structure Continues (seen seen' : List TypeId) : Prop where
  pre : seen <+: seen'
  nodup : seen.Nodup → seen'.Nodup

namespace Continues

variable {seen₁ seen' : List TypeId}

theorem refl (seen : List TypeId) : Continues seen seen :=
  ⟨prefix_refl _, id⟩

theorem trans (h : Continues seen seen₁) (h' : Continues seen₁ seen') : Continues seen seen' :=
  ⟨h.pre.trans h'.pre, fun hn => h'.nodup (h.nodup hn)⟩

theorem concat (h : id ∉ seen) : Continues seen (seen ++ [id]) := by
  refine ⟨prefix_append _ _, fun hn => ?_⟩
  rw [nodup_append]
  refine ⟨hn, by simp, fun a ha b hb => ?_⟩
  rintro rfl
  exact h (mem_singleton.mp hb ▸ ha)

end Continues

section
variable {R : List TypeId → List TypeId → Prop} {P : TypeId → Prop}
  (hrefl : ∀ seen, R seen seen) (htrans : ∀ {l l₁ l'}, R l l₁ → R l₁ l' → R l l')
  {enter : TypeId → List TypeId → List TypeId}
include hrefl htrans

/-- What holds whenever a named type is entered holds of a type. -/
theorem Schema.Over.walk {t : Schema} (henter : ∀ id, P id → ∀ seen, R seen (enter id seen))
    (ht : t.Over P) : ∀ seen, R seen (t.reachWith enter seen) := by
  refine Alike.induction (P := fun t _ => ∀ seen, R seen (t.reachWith enter seen))
    ?primitive ?array ?map ?union ?named ht
  case primitive => exact fun _ _ => hrefl
  case array => exact fun _ ih _ => ih
  case map => exact fun _ ih _ => ih
  case union =>
    rintro ts us - ih
    show ∀ seen, R seen (reachBranches enter ts seen)
    induction ih with
    | nil => exact hrefl
    | cons ht _ ih => exact fun seen => htrans (ht seen) (ih _)
  case named =>
    rintro id _ ⟨rfl, hid⟩
    exact henter id hid

theorem walk_fields (henter : ∀ id, P id → ∀ seen, R seen (enter id seen)) {fs : List Field}
    (hfs : ∀ f ∈ fs, f.type.Over P) (seen : List TypeId) :
    R seen (fs.foldl (fun seen f => f.type.reachWith enter seen) seen) := by
  induction fs generalizing seen with
  | nil => exact hrefl _
  | cons f fs ih =>
    rw [forall_mem_cons] at hfs
    exact htrans (hfs.1.walk hrefl htrans henter seen) (ih hfs.2 _)

theorem Catalog.walk_enter {c : Catalog}
    (hconcat : ∀ id seen, P id → id ∉ seen → R seen (seen ++ [id]))
    (hover : ∀ id, P id → ∀ f ∈ (c.definition id).body.fields, f.type.Over P) (depth : Nat)
    (id : TypeId) (hid : P id) (seen : List TypeId) : R seen (c.enter depth id seen) := by
  induction depth generalizing id seen with
  | zero =>
    by_cases h : id ∈ seen
    · rw [enter_of_mem h]
      exact hrefl _
    · rw [enter_zero h]
      exact hconcat id seen hid h
  | succ depth ih =>
    by_cases h : id ∈ seen
    · rw [enter_of_mem h]
      exact hrefl _
    · rw [enter_of_notMem h]
      exact htrans (hconcat id seen hid h) (walk_fields hrefl htrans ih (hover id hid) _)

end

theorem Schema.over_true (t : Schema) : t.Over fun _ => True :=
  .refl (fun _ => ⟨rfl, trivial⟩) t

section
variable {enter : TypeId → List TypeId → List TypeId}
  (henter : ∀ id seen, Continues seen (enter id seen))
include henter

theorem Schema.continues_reachWith (t : Schema) (seen : List TypeId) :
    Continues seen (t.reachWith enter seen) :=
  t.over_true.walk .refl .trans (fun id _ => henter id) seen

theorem continues_fields (fs : List Field) (seen : List TypeId) :
    Continues seen (fs.foldl (fun seen f => f.type.reachWith enter seen) seen) :=
  walk_fields .refl .trans (fun id _ => henter id) (fun f _ => f.type.over_true) seen

end

theorem Catalog.continues_enter (c : Catalog) (depth : Nat) (id : TypeId) (seen : List TypeId) :
    Continues seen (c.enter depth id seen) :=
  walk_enter .refl .trans (fun _ _ _ => .concat) (fun _ _ f _ => f.type.over_true) depth id trivial
    seen

theorem Catalog.nodup_reachable (c : Catalog) (id : TypeId) :
    ((Schema.named id).reachable c).Nodup :=
  (c.continues_enter _ id []).nodup nodup_nil

theorem Catalog.mem_enter (c : Catalog) (depth : Nat) (id : TypeId) (seen : List TypeId) :
    id ∈ c.enter depth id seen := by
  by_cases h : id ∈ seen
  · rwa [enter_of_mem h]
  · cases depth with
    | zero =>
      rw [enter_zero h]
      simp
    | succ depth =>
      rw [enter_of_notMem h]
      exact (continues_fields (c.continues_enter depth) _ _).pre.subset (by simp)

/-- A type names only types that it adds, or that have been seen. -/
theorem Schema.over_reachWith (c : Catalog) (depth : Nat) (t : Schema) (seen : List TypeId) :
    t.Over (· ∈ t.reachWith (c.enter depth) seen) := by
  induction t using nestedInduction generalizing seen with
  | primitive kind props => exact ⟨props, rfl, rfl⟩
  | array items props ih => exact ⟨items, props, rfl, ih seen, rfl⟩
  | map values props ih => exact ⟨values, props, rfl, ih seen, rfl⟩
  | union branches ih =>
    refine ⟨branches, rfl, allAlike_iff.mpr (List.forall₂_same.mpr ?_)⟩
    show ∀ t ∈ branches, t.Over (· ∈ reachBranches (c.enter depth) branches seen)
    induction branches generalizing seen with
    | nil => exact forall_mem_nil _
    | cons t ts ihs =>
      obtain ⟨ht, hts⟩ := forall_mem_cons.mp ih
      have hrest := continues_reachWith (c.continues_enter depth) (.union ts)
        (t.reachWith (c.enter depth) seen)
      exact forall_mem_cons.mpr ⟨(ht seen).mono fun _ h => hrest.pre.subset h, ihs hts _⟩
  | named id => exact ⟨id, rfl, rfl, c.mem_enter depth id seen⟩

/-- The fields of a type name only types that it reaches. -/
theorem Catalog.over_reachable {c : Catalog} (hid : id.index < c.size) {f : Field}
    (hf : f ∈ (c.definition id).body.fields) : f.type.Over (· ∈ (Schema.named id).reachable c) := by
  obtain ⟨depth, hdepth⟩ : ∃ n, c.size = n + 1 := ⟨c.size - 1, by omega⟩
  obtain ⟨before, after, hsplit⟩ := append_of_mem hf
  show f.type.Over (· ∈ c.enter c.size id [])
  rw [hdepth, enter_of_notMem not_mem_nil, hsplit, foldl_append, foldl_cons]
  exact (f.type.over_reachWith c depth _).mono fun _ h =>
    (continues_fields (c.continues_enter depth) after _).pre.subset h

/-- The place of a type in a list. -/
def TypeId.placeIn (order : List TypeId) (id : TypeId) : TypeId :=
  ⟨order.idxOf id⟩

namespace TypeId

variable {b id : TypeId}

theorem placeIn_lt (h : seen <+: order) :
    (a.placeIn order).index < seen.length ↔ a ∈ seen := by
  obtain ⟨rest, rfl⟩ := h
  show (seen ++ rest).idxOf a < seen.length ↔ _
  by_cases ha : a ∈ seen
  · rw [idxOf_append_of_mem ha, idxOf_lt_length_iff]
  · rw [idxOf_append_of_notMem ha]
    simp [ha]

theorem placeIn_concat (hid : id ∉ seen) (h : seen ++ [id] <+: order) :
    id.placeIn order = ⟨seen.length⟩ := by
  obtain ⟨rest, rfl⟩ := h
  rw [placeIn, append_assoc, idxOf_append_of_notMem hid, singleton_append,
    idxOf_cons_self, Nat.add_zero]

theorem placeIn_inj (ha : a ∈ order) (h : a.placeIn order = b.placeIn order) : a = b :=
  (idxOf_inj ha).mp (congrArg TypeId.index h)

theorem map_placeIn (h : order.Nodup) : order.map (placeIn order) = upTo order.length := by
  refine ext_getElem (by simp [upTo]) fun i hi _ => ?_
  simp [upTo, placeIn, h.idxOf_getElem]

/-- Every place has its type. -/
theorem exists_placeIn (hn : order.Nodup) (h : seen <+: order) (hid : id.index < seen.length) :
    ∃ a ∈ seen, a.placeIn order = id := by
  have hmem : id ∈ order.map (placeIn order) := by
    rw [map_placeIn hn, mem_upTo]
    exact Nat.lt_of_lt_of_le hid h.length_le
  obtain ⟨a, -, rfl⟩ := mem_map.mp hmem
  exact ⟨a, (placeIn_lt h).mp hid, rfl⟩

end TypeId

/-! ### Laying again -/

/-- A definition without its fields is cut from it at any place. -/
theorem Definition.cut_keep_zero (d : Definition) (σ : TypeId → TypeId) :
    (d.keep 0).Cut (d.rename σ) := by
  rw [keep, rename]
  cases hb : d.body with
  | record isError fields => exact ⟨fields.map (Field.rename σ), by rw [foldl_addField rfl]; rfl⟩
  | enum | fixed => exact .refl _

/-- The types seen so far are laid again at their places in the list; their records may lack their
last fields. -/
structure Scope.Draws (s₀ : Scope) (order seen : List TypeId) (s : Scope) : Prop where
  complete : s.Complete
  sound : s.Sound
  pre : seen <+: order
  size : s.catalog.size = seen.length
  redraws : s₀.catalog.Redraws (TypeId.placeIn order) s.catalog

/-- The piece is laid again: the types seen before it are followed by those seen after it, which are
laid with all their fields. -/
structure Drawn (s₀ : Scope) (order seen seen' : List TypeId) (p : Piece) (s s' : Scope) :
    Prop where
  lays : Lays s p s'
  draws : s₀.Draws order seen' s'
  whole : ∀ a ∈ seen', a ∉ seen → s'.catalog.definition (a.placeIn order) =
    (s₀.catalog.definition a).rename (TypeId.placeIn order)

namespace Scope.Draws

variable {id : TypeId}

section
variable (h : s₀.Draws order seen s)
include h

theorem placeIn_lt :
    (id.placeIn order).index < s.catalog.size ↔ id ∈ seen := by
  rw [h.size, TypeId.placeIn_lt h.pre]

theorem placeIn_eq_size (hid : id ∉ seen) (hlast : seen ++ [id] <+: order) :
    id.placeIn order = ⟨s.catalog.size⟩ := by
  rw [h.size, TypeId.placeIn_concat hid hlast]

theorem definition_enter (hid : id ∉ seen) (hlast : seen ++ [id] <+: order) (d : Definition) :
    (s.enter d).catalog.definition (id.placeIn order) = d := by
  rw [h.placeIn_eq_size hid hlast, definition_enter_self]

/-- A type is entered at its place. -/
theorem enter (hn : order.Nodup) (hid : id ∉ seen) (hlast : seen ++ [id] <+: order)
    (hall : ∀ a ∈ order, s₀.Portable a) :
    s.registry.contains ((s₀.catalog.definition id).keep 0).fullName = false ∧
      s₀.Draws order (seen ++ [id]) (s.enter ((s₀.catalog.definition id).keep 0)) := by
  have hportable := hall id (hlast.subset (by simp))
  have hplace := TypeId.placeIn_concat hid hlast
  have hnew : s.registry.contains ((s₀.catalog.definition id).keep 0).fullName = false := by
    refine Registry.contains_eq_false_iff.mpr (Option.eq_none_iff_forall_ne_some.mpr fun x hx => ?_)
    obtain ⟨hlt, hname⟩ := h.sound.get? _ x hx
    obtain ⟨a, ha, rfl⟩ := TypeId.exists_placeIn hn h.pre (h.size ▸ hlt)
    rw [h.redraws.fullName_eq hlt] at hname
    -- two types of one full name are one type of the registry
    have hknown := (hall a (h.pre.subset ha)).known
    rw [hname] at hknown
    exact hid (Option.some.inj (hknown.symm.trans hportable.known) ▸ ha)
  have hdeclarable := hportable.clean.declarable hportable.lawful
  refine ⟨hnew, h.complete.enter hnew, h.sound.enter hnew ?_ hdeclarable.space_ne_empty, hlast, ?_,
    fun a ha => ?_⟩
  · rw [Definition.keep]
    cases (s₀.catalog.definition id).body <;> rfl
  · rw [size_enter, h.size, length_append, length_singleton]
  · rcases lt_size_enter ha with ha | ha
    · rw [definition_enter_of_lt ha]
      exact h.redraws a ha
    · rw [h.size, ← hplace] at ha
      obtain rfl := TypeId.placeIn_inj (hlast.subset (by simp)) ha.symm
      rw [hplace, ← h.size, definition_enter_self]
      exact Definition.cut_keep_zero _ _

/-- A type that has been seen is known. -/
theorem known (hall : ∀ a ∈ order, s₀.Portable a) (hid : id ∈ seen) :
    ∃ s', Drawn s₀ order seen (s₀.catalog.enter depth id seen)
      (.type (.named (id.placeIn order))) s s' := by
  rw [Catalog.enter_of_mem hid]
  refine ⟨s, .known (h.complete.get? _ (h.placeIn_lt.mpr hid)) ?_, h, fun a ha hn => absurd ha hn⟩
  rw [h.redraws.fullName_eq (h.placeIn_lt.mpr hid)]
  exact (hall id (h.pre.subset hid)).name

end

section
variable {f : Field} {fs : List Field}
  (hbody : (s₀.catalog.definition id).body = .record isError (fs ++ f :: gs))
  (hcurrent : s.catalog.definition (id.placeIn order) =
    { s₀.catalog.definition id with body := .record isError (fs.map (Field.rename (TypeId.placeIn order))) })
include hbody hcurrent

/-- The next field of a record passes its checks: the record has just the fields before it, and
other records have at most those that they have in the end. -/
theorem declarable (h : s₀.Draws order seen s) (hid : s₀.Portable id)
    (hf : (f.type.rename (TypeId.placeIn order)).Within s.catalog.size) :
    (f.rename (TypeId.placeIn order)).Declarable s.catalog := by
  have hredraws : (s₀.catalog.keep id fs.length).Redraws (TypeId.placeIn order) s.catalog := by
    refine h.redraws.keep hid.lt_size ?_
    rw [hcurrent, Definition.keep_record hbody, take_left, Definition.rename]
    rfl
  have hget : (s₀.catalog.definition id).body.fields[fs.length]? = some f := by
    rw [hbody]
    simp [Body.fields]
  have hlawful := hid.lawful.body
  rw [hbody] at hlawful
  have hclean := hid.clean.fields f (mem_of_getElem? hget)
  exact ⟨hlawful.2 f (mem_append_right _ mem_cons_self), hclean.order, hclean.aliases,
    hclean.props, fun v hv => Json.fits_rename hredraws h.sound.closed hf
      (hid.defaults fs.length f hget v hv)⟩

/-- The next field of a record has a name of its own. -/
theorem name_ne (hid : s₀.Portable id) :
    ∀ g ∈ (s.catalog.definition (id.placeIn order)).body.fields,
      g.name ≠ (f.rename (TypeId.placeIn order)).name := by
  rw [hcurrent]
  intro g hg
  obtain ⟨g', hg', rfl⟩ := mem_map.mp hg
  have hlawful := hid.lawful.body
  rw [hbody] at hlawful
  have hnames := hlawful.1
  rw [map_append, map_cons, nodup_append] at hnames
  exact hnames.2.2 _ (mem_map_of_mem hg') _ mem_cons_self

/-- A record gets its next field. -/
theorem extend (h : s₀.Draws order seen s) (hid : id ∈ seen)
    (hf : (f.type.rename (TypeId.placeIn order)).Within s.catalog.size) :
    s₀.Draws order seen (s.extend (id.placeIn order) (f.rename (TypeId.placeIn order))) where
  complete := h.complete.extend _ _
  sound := h.sound.extend _ hf
  pre := h.pre
  size := by rw [size_extend, h.size]
  redraws a ha := by
    rw [size_extend, h.placeIn_lt] at ha
    by_cases he : a = id
    · subst he
      rw [definition_extend_self (h.placeIn_lt.mpr ha), hcurrent, Definition.addField_fields rfl]
      refine ⟨gs.map (Field.rename (TypeId.placeIn order)), ?_⟩
      rw [Definition.foldl_addField rfl, Definition.rename, hbody]
      simp [Body.rename]
    · rw [definition_extend_of_ne fun hp => he (TypeId.placeIn_inj (h.pre.subset ha) hp)]
      exact h.redraws a (h.placeIn_lt.mpr ha)

end

end Scope.Draws

/-- Named types can be laid again, as long as the depth suffices for the types that are left. -/
def DrawsNamed (s₀ : Scope) (order : List TypeId) (depth : Nat)
    (enter : TypeId → List TypeId → List TypeId) : Prop :=
  ∀ {id seen s}, s₀.Draws order seen s → order.length ≤ seen.length + depth →
    enter id seen <+: order →
      ∃ s', Drawn s₀ order seen (enter id seen) (.type (.named (id.placeIn order))) s s'

section
variable {enter : TypeId → List TypeId → List TypeId}
  (hcontinues : ∀ id seen, Continues seen (enter id seen))
include hcontinues

theorem drawn_branches {ts : List Schema}
    (ih : ∀ t ∈ ts, ∀ {seen s}, s₀.Draws order seen s → order.length ≤ seen.length + depth →
      t.reachWith enter seen <+: order → ∃ s', Drawn s₀ order seen (t.reachWith enter seen)
        (.type (t.rename (TypeId.placeIn order))) s s') (hs : s₀.Draws order seen s)
    (hdepth : order.length ≤ seen.length + depth)
    (hlast : Schema.reachBranches enter ts seen <+: order) :
    ∃ s', Drawn s₀ order seen (Schema.reachBranches enter ts seen)
      (.branches (ts.map (Schema.rename (TypeId.placeIn order)))) s s' := by
  induction ts generalizing seen s with
  | nil => exact ⟨s, .noBranch, hs, fun a ha hn => absurd ha hn⟩
  | cons t ts ihs =>
    obtain ⟨ht, hts⟩ := forall_mem_cons.mp ih
    have hrest : t.reachWith enter seen <+:
        Schema.reachBranches enter ts (t.reachWith enter seen) :=
      (Schema.continues_reachWith hcontinues (.union ts) _).pre
    have hle := (t.continues_reachWith hcontinues seen).pre.length_le
    obtain ⟨s₁, h₁⟩ := ht hs hdepth (hrest.trans hlast)
    obtain ⟨s', h'⟩ := ihs hts h₁.draws (by omega) hlast
    refine ⟨s', .branch h₁.lays h'.lays, h'.draws, fun a ha hn => ?_⟩
    by_cases hfirst : a ∈ t.reachWith enter seen
    · rw [h'.lays.definition_eq (h₁.draws.placeIn_lt.mpr hfirst) trivial]
      exact h₁.whole a hfirst hn
    · exact h'.whole a ha hfirst

variable (henter : DrawsNamed s₀ order depth enter)
include henter

/-- **A type is laid again.** -/
theorem drawn_type {t : Schema} (hclean : t.Clean) (ht : t.Stands s₀) (hs : s₀.Draws order seen s)
    (hdepth : order.length ≤ seen.length + depth) (hlast : t.reachWith enter seen <+: order) :
    ∃ s', Drawn s₀ order seen (t.reachWith enter seen)
      (.type (t.rename (TypeId.placeIn order))) s s' := by
  induction t using Schema.nestedInduction generalizing seen s with
  | primitive kind props =>
    cases hclean with
    | primitive hp => exact ⟨s, .primitive hp, hs, fun a ha hn => absurd ha hn⟩
  | array items props ih =>
    cases hclean with
    | array hp hi =>
      cases ht with
      | array _ ht =>
        obtain ⟨s', h⟩ := ih hi ht hs hdepth hlast
        exact ⟨s', .array hp h.lays, h.draws, h.whole⟩
  | map values props ih =>
    cases hclean with
    | map hp hv =>
      cases ht with
      | map _ ht =>
        obtain ⟨s', h⟩ := ih hv ht hs hdepth hlast
        exact ⟨s', .map hp h.lays, h.draws, h.whole⟩
  | union branches ih =>
    cases hclean with
    | union hts =>
      cases ht with
      | union hstands hu hkeys =>
        obtain ⟨s', h⟩ := drawn_branches hcontinues
          (fun t ht _ _ => ih t ht (hts t ht) (hstands t ht)) hs hdepth hlast
        refine ⟨s', ?_, h.draws, h.whole⟩
        obtain ⟨-, hwithin⟩ := h.lays.sound hs.sound
        rw [Schema.rename, Schema.renameAll_eq]
        refine .union h.lays (yields_checkBranches.mpr ⟨rfl, ?_, ?_, fun _ _ => not_mem_nil⟩)
        · simpa using hu
        · have hsame : (branches.map (Schema.rename (TypeId.placeIn order))).map
              (·.branchKey s'.catalog) = branches.map (·.branchKey s₀.catalog) := by
            rw [map_map]
            exact map_congr_left fun t ht =>
              h.draws.redraws.branchKey_eq (hwithin _ (mem_map_of_mem ht))
          rwa [hsame]
  | named id => exact henter hs hdepth hlast

/-- **The fields of a record are laid again**, after those that it has. -/
theorem drawn_fields (hall : ∀ a ∈ order, s₀.Portable a) {fs : List Field}
    (hbody : (s₀.catalog.definition id).body = .record isError (fs ++ gs))
    (hs : s₀.Draws order seen s) (hid : id ∈ seen)
    (hcurrent : s.catalog.definition (id.placeIn order) = { s₀.catalog.definition id with
      body := .record isError (fs.map (Field.rename (TypeId.placeIn order))) })
    (hdepth : order.length ≤ seen.length + depth)
    (hlast : gs.foldl (fun seen f => f.type.reachWith enter seen) seen <+: order) :
    ∃ s', Drawn s₀ order seen (gs.foldl (fun seen f => f.type.reachWith enter seen) seen)
      (.fields (id.placeIn order) (gs.map (Field.rename (TypeId.placeIn order)))) s s' := by
  induction gs generalizing fs seen s with
  | nil => exact ⟨s, .noField, hs, fun a ha hn => absurd ha hn⟩
  | cons f gs ih =>
    have hportable := hall id (hs.pre.subset hid)
    have hmem : f ∈ (s₀.catalog.definition id).body.fields := by
      rw [hbody]
      exact mem_append_right _ mem_cons_self
    have hf := hportable.clean.fields f hmem
    have hrest := continues_fields hcontinues gs (f.type.reachWith enter seen)
    have hfirst := f.type.continues_reachWith hcontinues seen
    have hle := hfirst.pre.length_le
    obtain ⟨s₁, h₁⟩ := drawn_type hcontinues henter hf.type (hportable.stands f hmem) hs hdepth
      (hrest.pre.trans hlast)
    obtain ⟨-, hwithin⟩ := h₁.lays.sound hs.sound
    have hid₁ : id ∈ f.type.reachWith enter seen := hfirst.pre.subset hid
    have hcurrent₁ : s₁.catalog.definition (id.placeIn order) = { s₀.catalog.definition id with
        body := .record isError (fs.map (Field.rename (TypeId.placeIn order))) } := by
      rw [h₁.lays.definition_eq (hs.placeIn_lt.mpr hid) trivial, hcurrent]
    have hdeclarable := h₁.draws.declarable hbody hcurrent₁ hportable hwithin
    have hnew := Scope.Draws.name_ne hbody hcurrent₁ hportable
    have hs₂ := h₁.draws.extend hbody hcurrent₁ hid₁ hwithin
    have hcurrent₂ : (s₁.extend (id.placeIn order)
      (f.rename (TypeId.placeIn order))).catalog.definition
        (id.placeIn order) = { s₀.catalog.definition id with
          body := .record isError ((fs ++ [f]).map (Field.rename (TypeId.placeIn order))) } := by
      rw [Scope.definition_extend_self (h₁.draws.placeIn_lt.mpr hid₁), hcurrent₁,
        Definition.addField_fields rfl, map_append]
      rfl
    obtain ⟨s', h'⟩ := ih (by simpa using hbody) hs₂ hid₁ hcurrent₂ (by omega) hlast
    refine ⟨s', .field h₁.lays hdeclarable hnew h'.lays, h'.draws, fun a ha hn => ?_⟩
    by_cases hseen : a ∈ f.type.reachWith enter seen
    · have hne : a.placeIn order ≠ id.placeIn order := fun he =>
        hn (TypeId.placeIn_inj (h₁.draws.pre.subset hseen) he ▸ hid)
      rw [h'.lays.definition_eq (hs₂.placeIn_lt.mpr hseen) hne, Scope.definition_extend_of_ne hne]
      exact h₁.whole a hseen hn
    · exact h'.whole a ha hseen

end

section
variable {id : TypeId} (hn : order.Nodup) (hall : ∀ a ∈ order, s₀.Portable a)
  (hs : s₀.Draws order seen s) (hid : id ∉ seen)
include hn hall hs hid

/-- A type without fields is laid again when it is entered. -/
theorem drawn_leaf (hlast : seen ++ [id] <+: order)
    (hb : ∀ isError fields, (s₀.catalog.definition id).body ≠ .record isError fields) :
    Drawn s₀ order seen (seen ++ [id]) (.type (.named (id.placeIn order))) s
      (s.enter ((s₀.catalog.definition id).keep 0)) := by
  obtain ⟨hnew, hs₁⟩ := hs.enter hn hid hlast hall
  have hportable := hall id (hlast.subset (by simp))
  have hdeclarable := hportable.clean.declarable hportable.lawful
  refine ⟨?_, hs₁, fun a ha hna => ?_⟩
  · rw [hs.placeIn_eq_size hid hlast]
    exact .leaf hdeclarable hnew (by rwa [Definition.keep_of_not_record hb])
  · obtain rfl : a = id := by simpa [hna] using ha
    rw [hs.definition_enter hid hlast, Definition.keep_of_not_record hb,
      Definition.rename_of_not_record hb]

/-- A record is entered and gets its fields. -/
theorem drawn_record {enter : TypeId → List TypeId → List TypeId}
    (hcontinues : ∀ id seen, Continues seen (enter id seen))
    (henter : DrawsNamed s₀ order depth enter) (hdepth : order.length ≤ seen.length + (depth + 1))
    {fields : List Field} (hb : (s₀.catalog.definition id).body = .record isError fields)
    (hlast : fields.foldl (fun seen f => f.type.reachWith enter seen) (seen ++ [id]) <+: order) :
    ∃ s', Drawn s₀ order seen
      (fields.foldl (fun seen f => f.type.reachWith enter seen) (seen ++ [id]))
      (.type (.named (id.placeIn order))) s s' := by
  have hconcat : seen ++ [id] <+: order :=
    (continues_fields hcontinues _ (seen ++ [id])).pre.trans hlast
  obtain ⟨hnew, hs₁⟩ := hs.enter hn hid hconcat hall
  have hportable := hall id (hconcat.subset (by simp))
  have hdeclarable := hportable.clean.declarable hportable.lawful
  have hbare : ((s₀.catalog.definition id).keep 0).body = .record isError [] := by
    rw [Definition.keep_record hb, take_zero]
  have hsplit : (s₀.catalog.definition id).body = .record isError ([] ++ fields) := hb
  obtain ⟨s', h'⟩ := drawn_fields hcontinues henter hall hsplit hs₁ (by simp)
    (by rw [hs.definition_enter hid hconcat, Definition.keep_record hb]; rfl) (by simp; omega) hlast
  have hlays := h'.lays
  rw [hs.placeIn_eq_size hid hconcat] at hlays ⊢
  refine ⟨s', .record hdeclarable hnew hbare hlays, h'.draws, fun a ha hna => ?_⟩
  by_cases hfirst : a ∈ seen ++ [id]
  · obtain rfl : a = id := by simpa [hna] using hfirst
    rw [hs.placeIn_eq_size hid hconcat, hlays.definition_record hbare, Definition.rename, hb]
    rfl
  · exact h'.whole a ha hfirst

end

/-- **A named type is laid again**: it is known already, or it is entered and gets its fields. -/
theorem drawn_enter (hn : order.Nodup) (hall : ∀ a ∈ order, s₀.Portable a) (depth : Nat) :
    DrawsNamed s₀ order depth (s₀.catalog.enter depth) := by
  induction depth with
  | zero =>
    intro id seen s hs hdepth hlast
    by_cases hid : id ∈ seen
    · exact hs.known hall hid
    · have hle := hlast.length_le
      rw [Catalog.enter_zero hid, length_append, length_singleton] at hle
      omega
  | succ depth ih =>
    intro id seen s hs hdepth hlast
    by_cases hid : id ∈ seen
    · exact hs.known hall hid
    · rw [Catalog.enter_of_notMem hid] at hlast ⊢
      cases hb : (s₀.catalog.definition id).body with
      | record isError fields =>
        rw [hb] at hlast
        exact drawn_record hn hall hs hid (s₀.catalog.continues_enter depth) ih hdepth hb hlast
      | enum | fixed =>
        rw [hb] at hlast
        exact ⟨_, drawn_leaf hn hall hs hid hlast (by simp [hb])⟩

/-! ### The document of a type -/

/-- A type is laid again from nothing, with all types that it reaches. -/
theorem drawn_root (hall : ∀ a ∈ (Schema.named id).reachable s₀.catalog, s₀.Portable a) :
    ∃ s', Drawn s₀ ((Schema.named id).reachable s₀.catalog) []
      ((Schema.named id).reachable s₀.catalog)
      (.type (.named (id.placeIn ((Schema.named id).reachable s₀.catalog)))) (.initial true true)
      s' := by
  have hn := s₀.catalog.nodup_reachable id
  have hlength : ((Schema.named id).reachable s₀.catalog).length ≤ s₀.catalog.size := by
    have hsub := hn.subperm fun a ha => TypeId.mem_upTo.mpr (hall a ha).lt_size
    simpa [TypeId.upTo] using hsub.length_le
  exact drawn_enter hn hall s₀.catalog.size
    ⟨Scope.complete_initial true true, Scope.sound_initial, nil_prefix, rfl,
      fun a ha => absurd ha (Nat.not_lt_zero _)⟩ (by simpa using hlength) (prefix_refl _)

namespace Drawn

variable {s' : Scope} {id : TypeId}
  (h : Drawn s₀ order [] order (.type (.named (id.placeIn order))) (.initial true true) s')
  (hall : ∀ a ∈ order, s₀.Portable a)
include h

theorem definition_eq (ha : a ∈ order) : s'.catalog.definition (a.placeIn order) =
    (s₀.catalog.definition a).rename (TypeId.placeIn order) :=
  h.whole a ha not_mem_nil

theorem fullName_eq : s'.catalog.fullName (id.placeIn order) = s₀.catalog.fullName id := by
  obtain ⟨-, _, -, -, hlt⟩ := h.lays.sound Scope.sound_initial
  exact h.draws.redraws.fullName_eq hlt

/-- What is laid again reaches the types of the list. -/
theorem names_reachable (hn : order.Nodup) :
    ((Schema.named (id.placeIn order)).reachable s'.catalog).map s'.catalog.fullName =
      order.map s₀.catalog.fullName := by
  rw [h.lays.reachable_eq, h.draws.size, ← TypeId.map_placeIn hn, map_map]
  exact map_congr_left fun a ha => h.draws.redraws.fullName_eq (h.draws.placeIn_lt.mpr ha)

include hall

/-- The two catalogs show the same, so that the two types have one document. -/
theorem document_eq : (Schema.named id).document s₀.catalog =
    (Schema.named (id.placeIn order)).document s'.catalog := by
  refine Schema.document_alike (ρ := fun a b => b = a.placeIn order ∧ b.index < s'.catalog.size)
    ?_ ?_ ?_
  · rintro a _ ⟨rfl, hlt⟩
    have ha := h.definition_eq (h.draws.placeIn_lt.mp hlt)
    have hclosed := h.draws.sound.closed _ hlt
    rw [ha] at hclosed ⊢
    exact Definition.alike_rename hclosed
  · rintro a _ ⟨rfl, hlt⟩
    exact ⟨(hall a (h.draws.placeIn_lt.mp hlt)).lt_size, hlt⟩
  · obtain ⟨-, _, -, -, hlt⟩ := h.lays.sound Scope.sound_initial
    exact ⟨_, rfl, rfl, hlt⟩

/-- The definitions can be named where they are laid, if types with a namespace only reach types
with one. -/
theorem nests (hn : order.Nodup)
    (hspace : ∀ a ∈ order, (s₀.catalog.definition a).space ≠ none →
      ∀ b ∈ (Schema.named a).reachable s₀.catalog, (s₀.catalog.definition b).space ≠ none) :
    s'.catalog.Nests := by
  intro x hx f' hf'
  obtain ⟨a, ha, rfl⟩ := TypeId.exists_placeIn hn h.draws.pre (h.draws.size ▸ hx)
  rw [h.definition_eq ha, Definition.body_rename, Body.fields_rename] at hf'
  obtain ⟨f, hf, rfl⟩ := mem_map.mp hf'
  rw [h.definition_eq ha]
  refine Schema.Over.rename ((Catalog.over_reachable (hall a ha).lt_size hf).mono fun b hb => ?_)
  cases hs : (s₀.catalog.definition a).space with
  | none => exact .inl (by rw [Definition.rename, hs]; rfl)
  | some text =>
    refine .inr fun hlt => h.draws.sound.spaced hlt ?_
    rw [h.definition_eq (h.draws.placeIn_lt.mp hlt)]
    exact hspace a ha (by simp [hs]) b hb

end Drawn

/-- **A type of a registry has a document that is read again**, if all types that it reaches are
portable and those of them that have a namespace only reach types with one.  What is read has the
same full name and reaches the same full names in the same order. -/
theorem Scope.document_reread_of_portable
    (hall : ∀ a ∈ (Schema.named id).reachable s₀.catalog, s₀.Portable a)
    (hspace : ∀ a ∈ (Schema.named id).reachable s₀.catalog,
      (s₀.catalog.definition a).space ≠ none →
        ∀ b ∈ (Schema.named a).reachable s₀.catalog, (s₀.catalog.definition b).space ≠ none) :
    ∃ document id' s', (Schema.named id).document s₀.catalog = .ok document ∧
      Yields (readSchema document .root) (.initial true true) (.named id') s' ∧
      s'.catalog.fullName id' = s₀.catalog.fullName id ∧
      ((Schema.named id').reachable s'.catalog).map s'.catalog.fullName =
        ((Schema.named id).reachable s₀.catalog).map s₀.catalog.fullName := by
  have hn := s₀.catalog.nodup_reachable id
  obtain ⟨s', h⟩ := drawn_root hall
  obtain ⟨document, hdocument, hy⟩ := h.lays.document_reread (h.nests hall hn hspace)
  refine ⟨document, _, s'.tidy, (h.document_eq hall).trans hdocument, hy, ?_, ?_⟩
  · rw [Scope.catalog_tidy, Catalog.fullName_tidy, h.fullName_eq]
  · rw [← h.names_reachable hn]
    exact (Schema.named (id.placeIn _)).names_reachable_tidy s'

end Avroc
